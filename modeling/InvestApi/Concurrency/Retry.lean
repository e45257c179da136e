import Mathlib.Algebra.BigOperators.Group.Finset.Basic
import Mathlib.Data.Fintype.Basic
import InvestApi.Ref.Retry

/-!
# `withRetry` loses no update

What happens to the row is a run of the isolated row alone: attempts that are
aborted leave nothing, back-offs and answers do not touch it. So the balance is
what the committed attempts make of it one after the other, stale reads and all
(`balance_serial`). What is left is to count them: a call commits at most once,
since after its COMMIT it never attempts again, and it returns only then.
-/

namespace InvestApi.Ref

open InvestApi.Pg InvestApi.Lts

variable {ι V : Type}

/-- The COMMIT of an attempt is done. -/
def RetryCall.contributed (c : RetryCall V) : Bool :=
  match c.phase with
  | .committed _ => true
  | .returned _ => true
  | .lost _ => true
  | _ => false

theorem failed_not_contributed (c : RetryCall V) (options : RetryOptions)
    (error : ThrownError) (random : Number) :
    (c.failed options error random).contributed = false := by
  simp only [RetryCall.failed]
  split
  · rfl
  · split
    · rfl
    · rfl

theorem contributed_of_settled {c : RetryCall V} (h : c.settled = true) :
    c.contributed = c.hasReturned := by
  obtain ⟨phase, attempt, retries⟩ := c
  cases phase with
  | returned outcome => rfl
  | threw error => rfl
  | attempting => simp [RetryCall.settled] at h
  | committed result => simp [RetryCall.settled] at h
  | sleeping => simp [RetryCall.settled] at h
  | lost error => simp [RetryCall.settled] at h

section Runs

variable [DecidableEq ι] {options : ι → RetryOptions} {next : ι → V → V} {v₀ : V}
  {s s' : RetryState ι V}

/-- A step of a call is a step of the row, or none. -/
theorem RetryStep.row {t : RetryTurn ι} (h : RetryStep options next s t s') :
    s'.toRowState = s.toRowState ∨
      ∃ e, RowStep next s.toRowState e s'.toRowState := by
  cases h with
  | read hc hr => exact Or.inr ⟨_, hr⟩
  | write hc hr => exact Or.inr ⟨_, hr⟩
  | @conflict i => exact Or.inr ⟨.abort i, .abort⟩
  | @fail i => exact Or.inr ⟨.abort i, .abort⟩
  | commit hc ht => exact Or.inr ⟨_, .commit ht⟩
  | answer hc => exact Or.inl rfl
  | lose hc herror => exact Or.inl rfl
  | wake hc => exact Or.inl rfl

/-- The balance is what the committed writers make of it in turn. -/
theorem balance_serial (h : Reachable (RetryStep options next) (.boot v₀) s) :
    s.row.value = s.commits.foldl (fun v i => next i v) v₀ :=
  RowState.serial <|
    Lts.Reach.project RetryState.toRowState h fun _ _ _ hstep => hstep.row

/-- Who is in the row's history, and once. -/
structure RetryCounted (s : RetryState ι V) : Prop where
  nodup : s.commits.Nodup
  mem : ∀ i, i ∈ s.commits ↔ (s.calls i).contributed = true

omit [DecidableEq ι] in
/-- A step that leaves the history alone and turns nobody's mark. -/
theorem RetryCounted.keep (h : RetryCounted s) (hcommits : s'.commits = s.commits)
    (hcalls : ∀ i, (s'.calls i).contributed = (s.calls i).contributed) :
    RetryCounted s' := by
  refine ⟨?_, fun i => ?_⟩
  · rw [hcommits]
    exact h.nodup
  · rw [hcommits, hcalls]
    exact h.mem i

omit [DecidableEq ι] in
theorem contributed_of_attempting {c : RetryCall V} (hc : c.phase = .attempting) :
    c.contributed = false := by
  rw [RetryCall.contributed, hc]

theorem contributed_update {calls : ι → RetryCall V} {i : ι} {c : RetryCall V}
    (h : c.contributed = (calls i).contributed) (j : ι) :
    (Function.update calls i c j).contributed = (calls j).contributed := by
  by_cases e : j = i
  · subst e
    rw [Function.update_self, h]
  · rw [Function.update_of_ne e]

theorem RetryCounted.abort (h : RetryCounted s) {i : ι} {options : RetryOptions}
    {error : ThrownError} {random : Number} (hc : (s.calls i).phase = .attempting) :
    RetryCounted (s.abort i options error random) := by
  refine h.keep rfl fun j => contributed_update ?_ j
  rw [failed_not_contributed, contributed_of_attempting hc]

theorem RetryCounted.commit (h : RetryCounted s) {i : ι} {new : V}
    (hc : (s.calls i).phase = .attempting) :
    RetryCounted (⟨s.toRowState.commit i new,
      Function.update s.calls i { s.calls i with phase := .committed new }⟩ :
        RetryState ι V) := by
  have hnew : i ∉ s.commits := by
    rw [h.mem, contributed_of_attempting hc]
    simp
  refine ⟨?_, fun j => ?_⟩
  · show (s.commits ++ [i]).Nodup
    refine List.nodup_append.mpr ⟨h.nodup, List.nodup_singleton i, fun j hj k hk => ?_⟩
    rw [List.mem_singleton.mp hk]
    rintro rfl
    exact hnew hj
  · show j ∈ s.commits ++ [i] ↔ _
    rw [List.mem_append, List.mem_singleton, h.mem]
    by_cases e : j = i
    · subst e
      simp [RetryCall.contributed]
    · simp [e]

theorem RetryCounted.step (h : RetryCounted s) {t : RetryTurn ι}
    (hstep : RetryStep options next s t s') : RetryCounted s' := by
  cases hstep with
  | read hc hr =>
      cases hr with
      | read ht => exact h.keep rfl fun _ => rfl
  | write hc hr =>
      cases hr with
      | write ht hfree hcurrent => exact h.keep rfl fun _ => rfl
  | conflict hc ht hold => exact h.abort hc
  | fail hc => exact h.abort hc
  | commit hc ht => exact h.commit hc
  | @answer i result hc =>
      refine h.keep rfl fun j => contributed_update ?_ j
      simp [RetryCall.contributed, hc]
  | @lose i result error hc herror =>
      refine h.keep rfl fun j => contributed_update ?_ j
      simp [RetryCall.contributed, hc]
  | @wake i hc =>
      refine h.keep rfl fun j => contributed_update ?_ j
      simp [RetryCall.contributed, RetryCall.wake, hc]

theorem RetryCounted.reach (h : Reachable (RetryStep options next) (.boot v₀) s) :
    RetryCounted s := by
  refine Lts.Reach.invariant h ⟨List.nodup_nil, fun i => ?_⟩
    fun _ _ _ hs _ hstep => hs.step hstep
  simp [RetryState.boot, RowState.boot, RetryCall.start, RetryCall.contributed]

end Runs

theorem foldl_add_eq {delta : ι → Int} (l : List ι) (b : Int) :
    l.foldl (fun b i => b + delta i) b = b + (l.map delta).sum := by
  induction l generalizing b with
  | nil => simp
  | cons i l ih =>
      rw [List.foldl_cons, ih, List.map_cons, List.sum_cons]
      omega

/-- At every moment the balance holds the deltas of the calls whose COMMIT is
done. -/
theorem balance_contributed [DecidableEq ι] [Fintype ι] {options : ι → RetryOptions}
    {delta : ι → Int} {b₀ : Int} {s : RetryState ι Int}
    (h : Reachable (RetryStep options fun i b => b + delta i) (.boot b₀) s) :
    s.row.value = b₀ + ∑ i with (s.calls i).contributed, delta i := by
  have hcounted : RetryCounted s := .reach h
  have hmem : s.commits.toFinset
      = Finset.univ.filter fun i => (s.calls i).contributed = true := by
    ext i
    rw [List.mem_toFinset, hcounted.mem]
    simp
  calc s.row.value
      = s.commits.foldl (fun b i => b + delta i) b₀ := balance_serial h
    _ = b₀ + (s.commits.map delta).sum := foldl_add_eq _ _
    _ = b₀ + ∑ i ∈ s.commits.toFinset, delta i := by
        rw [List.sum_toFinset delta hcounted.nodup]
    _ = b₀ + ∑ i with (s.calls i).contributed, delta i := by rw [hmem]

/-- When all calls are over, these are the calls that returned; whoever threw
after an aborted attempt is not among them. -/
theorem withRetry_loses_no_update [DecidableEq ι] [Fintype ι]
    {options : ι → RetryOptions} {delta : ι → Int} {b₀ : Int} {s : RetryState ι Int}
    (h : Reachable (RetryStep options fun i b => b + delta i) (.boot b₀) s)
    (hsettled : ∀ i, (s.calls i).settled = true) :
    s.row.value = b₀ + ∑ i with (s.calls i).hasReturned, delta i := by
  have hsame : ∀ i, (s.calls i).contributed = (s.calls i).hasReturned :=
    fun i => contributed_of_settled (hsettled i)
  rw [balance_contributed h]
  simp only [hsame]

/-! ## A run -/

/-- A turn as a function, where it is possible. -/
def RetryState.fire {n : Nat} (options : Fin n → RetryOptions) (next : Fin n → Int → Int)
    (s : RetryState (Fin n) Int) : RetryTurn (Fin n) → Option (RetryState (Fin n) Int)
  | .read i =>
      if (s.calls i).phase = .attempting ∧ s.txs i = .begun then
        some ⟨s.setTx i (.read s.row), s.calls⟩
      else none
  | .write i =>
      match s.txs i with
      | .read seen =>
          if (s.calls i).phase = .attempting ∧
              (∀ j, j ≠ i → (s.txs j).holds = false) ∧ seen.version = s.row.version then
            some ⟨s.setTx i (.written (next i seen.value)), s.calls⟩
          else none
      | _ => none
  | .conflict i random =>
      match s.txs i with
      | .read seen =>
          if (s.calls i).phase = .attempting ∧ seen.version ≠ s.row.version then
            some (s.abort i (options i) serializationFailure random)
          else none
      | _ => none
  | .commit i =>
      match s.txs i with
      | .written new =>
          if (s.calls i).phase = .attempting then
            some ⟨s.toRowState.commit i new,
              Function.update s.calls i { s.calls i with phase := .committed new }⟩
          else none
      | _ => none
  | .answer i =>
      match (s.calls i).phase with
      | .committed result =>
          some (s.setPhase i (.returned ⟨result, (s.calls i).attempt, (s.calls i).retries⟩))
      | _ => none
  | .wake i =>
      if (s.calls i).phase = .sleeping then some (s.setCall i (s.calls i).wake) else none
  | _ => none

theorem RetryState.fire_sound {n : Nat} {options : Fin n → RetryOptions}
    {next : Fin n → Int → Int} (s : RetryState (Fin n) Int) (t : RetryTurn (Fin n))
    (s' : RetryState (Fin n) Int) (h : s.fire options next t = some s') :
    Next (RetryStep options next) (fun _ _ => True) s s' := by
  cases t with
  | read i =>
      simp only [fire] at h
      split at h
      · next hc =>
          exact Option.some.inj h ▸ ⟨.read i, trivial, .read hc.1 (.read hc.2)⟩
      · simp at h
  | write i =>
      simp only [fire] at h
      split at h
      · next seen ht =>
          split at h
          · next hc =>
              exact Option.some.inj h ▸
                ⟨.write i, trivial, .write hc.1 (.write ht hc.2.1 hc.2.2)⟩
          · simp at h
      · simp at h
  | conflict i random =>
      simp only [fire] at h
      split at h
      · next seen ht =>
          split at h
          · next hc =>
              exact Option.some.inj h ▸
                ⟨.conflict i random, trivial, .conflict hc.1 ht hc.2⟩
          · simp at h
      · simp at h
  | commit i =>
      simp only [fire] at h
      split at h
      · next new ht =>
          split at h
          · next hc => exact Option.some.inj h ▸ ⟨.commit i, trivial, .commit hc ht⟩
          · simp at h
      · simp at h
  | answer i =>
      simp only [fire] at h
      split at h
      · next result hc => exact Option.some.inj h ▸ ⟨.answer i, trivial, .answer hc⟩
      · simp at h
  | wake i =>
      simp only [fire] at h
      split at h
      · next hc => exact Option.some.inj h ▸ ⟨.wake i, trivial, .wake hc⟩
      · simp at h
  | fail i error random => simp [fire] at h
  | lose i error => simp [fire] at h

/-- The last writer has one attempt. -/
def threeWriters (i : Fin 3) : RetryOptions :=
  ⟨some (if i = 2 then 1 else 10), 20, 400, fun _ => none⟩

/-- All have read before anybody writes. -/
def retrySchedule : List (RetryTurn (Fin 3)) :=
  [.read 0, .read 1, .read 2, .write 0, .commit 0, .conflict 1 (1 / 2), .conflict 2 0,
    .answer 0, .wake 1, .read 1, .write 1, .commit 1, .answer 1]

theorem withRetry_loses_no_update_three :
    ∃ s : RetryState (Fin 3) Int,
      Reachable (RetryStep threeWriters fun _ b => b + 100) (.boot 1000) s ∧
      s.row.value = 1000 + ∑ i with (s.calls i).hasReturned, 100 ∧
      decide (s.row.value = 1200 ∧
        (s.calls 1).phase = .returned ⟨1200, 2, [⟨1, "40001", 10⟩]⟩ ∧
        (s.calls 2).phase = .threw serializationFailure ∧
        ∀ i, (s.calls i).settled = true) = true := by
  have hrun : (follow (RetryState.fire threeWriters fun _ b => b + 100) retrySchedule
      (.boot 1000)).any (fun s => decide (s.row.value = 1200 ∧
        (s.calls 1).phase = .returned ⟨1200, 2, [⟨1, "40001", 10⟩]⟩ ∧
        (s.calls 2).phase = .threw serializationFailure ∧
        ∀ i, (s.calls i).settled = true)) = true := by
    decide +kernel
  obtain ⟨s, hr, hp⟩ := exists_follow RetryState.fire_sound _ _ _ hrun
  have hend := of_decide_eq_true hp
  exact ⟨s, hr, withRetry_loses_no_update hr hend.2.2.2, hp⟩

end InvestApi.Ref
