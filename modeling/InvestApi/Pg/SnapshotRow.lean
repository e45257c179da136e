import Mathlib.Data.Fintype.Defs
import InvestApi.Lts.Run

/-!
# One row under snapshot isolation

A transaction reads the row as it was at its first statement. It may write the
row when nobody else's write is open and no commit has written the row since:
the first updater wins, and whoever comes after it can only abort. An abort
leaves nothing behind.

So a write is computed from the value it replaces, and the row is what its
committed writers make of it one after the other (`RowState.serial`). Each
writer computes with a function of its own, whatever that function is.
-/

namespace InvestApi.Pg

open InvestApi.Lts

variable {ι V : Type}

/-- A value and how many commits have written it. -/
structure Versioned (V : Type) where
  value : V
  version : Nat
  deriving DecidableEq

def Versioned.put (row : Versioned V) (v : V) : Versioned V := ⟨v, row.version + 1⟩

/-- How far a transaction on the row is. -/
inductive RowTx (V : Type) where
  | begun
  | read (seen : Versioned V)
  | written (new : V)
  deriving DecidableEq

/-- An open write holds the row's lock. -/
def RowTx.holds : RowTx V → Bool
  | .written _ => true
  | _ => false

/-- The row, everybody's transaction on it, and who has committed, in order. -/
structure RowState (ι V : Type) where
  row : Versioned V
  txs : ι → RowTx V
  commits : List ι

inductive RowEvent (ι : Type) where
  | read (i : ι)
  | write (i : ι)
  | commit (i : ι)
  | abort (i : ι)

namespace RowState

variable [DecidableEq ι]

def boot (v : V) : RowState ι V := ⟨⟨v, 0⟩, fun _ => .begun, []⟩

def setTx (s : RowState ι V) (i : ι) (tx : RowTx V) : RowState ι V :=
  { s with txs := Function.update s.txs i tx }

/-- Nobody but `i` has a write open. -/
def free (s : RowState ι V) (i : ι) : Prop := ∀ j, j ≠ i → (s.txs j).holds = false

def commit (s : RowState ι V) (i : ι) (new : V) : RowState ι V :=
  ⟨s.row.put new, Function.update s.txs i .begun, s.commits ++ [i]⟩

@[simp] theorem setTx_row (s : RowState ι V) (i : ι) (tx : RowTx V) :
    (s.setTx i tx).row = s.row := rfl

@[simp] theorem setTx_commits (s : RowState ι V) (i : ι) (tx : RowTx V) :
    (s.setTx i tx).commits = s.commits := rfl

@[simp] theorem setTx_self (s : RowState ι V) (i : ι) (tx : RowTx V) :
    (s.setTx i tx).txs i = tx := by
  simp [setTx]

@[simp] theorem setTx_ne (s : RowState ι V) {i j : ι} (tx : RowTx V) (h : j ≠ i) :
    (s.setTx i tx).txs j = s.txs j := by
  simp [setTx, h]

end RowState

section Steps

variable [DecidableEq ι]

inductive RowStep (next : ι → V → V) :
    RowState ι V → RowEvent ι → RowState ι V → Prop
  | read {s i} (ht : s.txs i = .begun) :
      RowStep next s (.read i) (s.setTx i (.read s.row))
  | write {s i seen} (ht : s.txs i = .read seen) (hfree : s.free i)
      (hcurrent : seen.version = s.row.version) :
      RowStep next s (.write i) (s.setTx i (.written (next i seen.value)))
  | commit {s i new} (ht : s.txs i = .written new) :
      RowStep next s (.commit i) (s.commit i new)
  | abort {s i} : RowStep next s (.abort i) (s.setTx i .begun)

/-- What a transaction has read is old, or it is what is there; what it has
written is computed from what is there. -/
def RowTx.Sound (row : Versioned V) (f : V → V) : RowTx V → Prop
  | .begun => True
  | .read seen =>
      seen.version ≤ row.version ∧ (seen.version = row.version → seen.value = row.value)
  | .written new => new = f row.value

/-- A commit makes everything read before it old. -/
theorem RowTx.Sound.put {row : Versioned V} {f : V → V} {tx : RowTx V}
    (h : tx.Sound row f) (hlock : tx.holds = false) (v : V) :
    tx.Sound (row.put v) f := by
  cases tx with
  | begun => trivial
  | read seen =>
      obtain ⟨hle, _⟩ := h
      refine ⟨Nat.le_succ_of_le hle, fun heq => ?_⟩
      have heq' : seen.version = row.version + 1 := heq
      omega
  | written new => simp [RowTx.holds] at hlock

/-- The invariant. -/
structure RowState.Serial (next : ι → V → V) (v₀ : V) (s : RowState ι V) : Prop where
  value : s.row.value = s.commits.foldl (fun v i => next i v) v₀
  sound : ∀ i, (s.txs i).Sound s.row (next i)
  exclusive : ∀ i j, (s.txs i).holds = true → (s.txs j).holds = true → i = j

variable {next : ι → V → V} {v₀ : V} {s s' : RowState ι V}

omit [DecidableEq ι] in
theorem RowState.Serial.boot : (RowState.boot v₀ : RowState ι V).Serial next v₀ where
  value := rfl
  sound _ := trivial
  exclusive _ _ hi := by simp [RowState.boot, RowTx.holds] at hi

/-- A step of one transaction that leaves the row alone. -/
theorem RowState.Serial.setTx (h : s.Serial next v₀) {i : ι} {tx : RowTx V}
    (hsound : tx.Sound s.row (next i)) (hlock : tx.holds = true → s.free i) :
    (s.setTx i tx).Serial next v₀ := by
  refine ⟨h.value, fun j => ?_, fun j k hj hk => ?_⟩
  · by_cases e : j = i
    · subst e
      rw [RowState.setTx_self]
      exact hsound
    · rw [RowState.setTx_ne _ _ e]
      exact h.sound j
  · by_cases ej : j = i
    · by_cases ek : k = i
      · rw [ej, ek]
      · subst ej
        rw [RowState.setTx_self] at hj
        rw [RowState.setTx_ne _ _ ek, hlock hj k ek] at hk
        simp at hk
    · rw [RowState.setTx_ne _ _ ej] at hj
      by_cases ek : k = i
      · subst ek
        rw [RowState.setTx_self] at hk
        rw [hlock hk j ej] at hj
        simp at hj
      · rw [RowState.setTx_ne _ _ ek] at hk
        exact h.exclusive j k hj hk

theorem RowState.Serial.commit (h : s.Serial next v₀) {i : ι} {new : V}
    (ht : s.txs i = .written new) : (s.commit i new).Serial next v₀ := by
  have hnew : new = next i s.row.value := by
    have hsound := h.sound i
    rw [ht] at hsound
    exact hsound
  have hmine : (s.txs i).holds = true := by rw [ht]; rfl
  -- Nobody else has a write open.
  have hothers : ∀ j, j ≠ i → (s.txs j).holds = false := by
    intro j hj
    by_contra hlock
    exact hj (h.exclusive j i (by simpa using hlock) hmine)
  refine ⟨?_, fun j => ?_, fun j k hj hk => ?_⟩
  · show new = (s.commits ++ [i]).foldl (fun v i => next i v) v₀
    rw [List.foldl_append, ← h.value, hnew]
    rfl
  · by_cases e : j = i
    · subst e
      simp [RowState.commit, RowTx.Sound]
    · have hsound := (h.sound j).put (hothers j e) new
      simpa [RowState.commit, e] using hsound
  · have hgone : ∀ j, ((s.commit i new).txs j).holds = false := by
      intro j
      by_cases e : j = i
      · subst e
        simp [RowState.commit, RowTx.holds]
      · simpa [RowState.commit, e] using hothers j e
    rw [hgone j] at hj
    simp at hj

theorem RowState.Serial.step (h : s.Serial next v₀) {e : RowEvent ι}
    (hstep : RowStep next s e s') : s'.Serial next v₀ := by
  cases hstep with
  | read ht => exact h.setTx ⟨Nat.le_refl _, fun _ => rfl⟩ (by simp [RowTx.holds])
  | @write i seen ht hfree hcurrent =>
      refine h.setTx ?_ fun _ => hfree
      have hsound := h.sound i
      rw [ht] at hsound
      show next i seen.value = next i s.row.value
      rw [hsound.2 hcurrent]
  | commit ht => exact h.commit ht
  | abort => exact h.setTx trivial (by simp [RowTx.holds])

/-- The row is what its committed writers make of it one after the other. -/
theorem RowState.serial (h : Reachable (RowStep next) (.boot v₀) s) :
    s.row.value = s.commits.foldl (fun v i => next i v) v₀ := by
  have hserial : s.Serial next v₀ :=
    Lts.Reach.invariant h .boot fun _ _ _ hs _ hstep => hs.step hstep
  exact hserial.value

end Steps

end InvestApi.Pg
