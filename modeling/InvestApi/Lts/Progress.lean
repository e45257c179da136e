import Mathlib.Algebra.Order.BigOperators.Group.Finset
import Mathlib.Data.DFinsupp.WellFounded
import Mathlib.Data.Fintype.BigOperators
import InvestApi.Lts.Run

/-!
# Runs that come to an end

A system completes when its runs are of bounded length and one that cannot go
on has reached its goal: then whoever schedules the steps, and however, the
goal is reached. The bound comes from a number that every step lowers; an
invariant may be used for it. Where the state has a part for each of finitely
many processes and a step moves one of them, that number is a sum.
-/

namespace InvestApi.Lts

variable {σ ε : Type}

/-- No event that meets `ok` is possible. -/
def Stuck (step : σ → ε → σ → Prop) (ok : σ → ε → Prop) (s : σ) : Prop :=
  ∀ s', ¬Next step ok s s'

/-- However the steps are scheduled, from `s₀` the goal is reached. -/
structure Completes (step : σ → ε → σ → Prop) (ok : σ → ε → Prop) (s₀ : σ)
    (goal : σ → Prop) : Prop where
  bounded : ∃ n, ∀ past s, Trace step ok s₀ past s → past.length ≤ n
  reached : ∀ s, Reach step ok s₀ s → Stuck step ok s → goal s

/-- `I` is kept by the steps that meet `ok`, and `μ` is lowered by them. -/
structure Descends (step : σ → ε → σ → Prop) (ok : σ → ε → Prop) (I : σ → Prop)
    (μ : σ → Nat) : Prop where
  keeps : ∀ s e s', I s → ok s e → step s e s' → I s'
  lowers : ∀ s e s', I s → ok s e → step s e s' → μ s' < μ s

variable {step : σ → ε → σ → Prop} {ok : σ → ε → Prop} {s₀ s : σ} {I : σ → Prop}
  {μ : σ → Nat} {goal : σ → Prop}

theorem Descends.invariant (h : Descends step ok I μ) (h₀ : I s₀)
    (hr : Reach step ok s₀ s) : I s :=
  Reach.invariant hr h₀ h.keeps

/-- A run pays for each of its events. -/
theorem Descends.length_add_le (h : Descends step ok I μ) (h₀ : I s₀) {past : List ε}
    (hr : Trace step ok s₀ past s) : past.length + μ s ≤ μ s₀ := by
  have key : I s ∧ past.length + μ s ≤ μ s₀ := by
    refine Trace.invariant (I := fun past s => I s ∧ past.length + μ s ≤ μ s₀) hr
      ⟨h₀, by simp⟩ fun past s e s' ih hok hstep => ?_
    obtain ⟨hI, hle⟩ := ih
    have hlt := h.lowers s e s' hI hok hstep
    refine ⟨h.keeps s e s' hI hok hstep, ?_⟩
    rw [List.length_cons]
    omega
  exact key.2

theorem Descends.completes (h : Descends step ok I μ) (h₀ : I s₀)
    (hend : ∀ s, Reach step ok s₀ s → I s → Stuck step ok s → goal s) :
    Completes step ok s₀ goal where
  bounded := by
    refine ⟨μ s₀, fun past s hr => ?_⟩
    have hle := h.length_add_le h₀ hr
    omega
  reached s hr hstuck := hend s hr (h.invariant h₀ hr) hstuck

/-! ## A process at a time -/

variable {ι : Type} [Fintype ι]

/-- A step of one process that lowers its part lowers the sum. -/
theorem sum_lt_of_moves {f g : ι → Nat} (i : ι) (hi : g i < f i)
    (hothers : ∀ j, j ≠ i → g j = f j) : ∑ j, g j < ∑ j, f j := by
  refine Finset.sum_lt_sum (fun j _ => ?_) ⟨i, Finset.mem_univ i, hi⟩
  by_cases e : j = i
  · rw [e]
    exact Nat.le_of_lt hi
  · exact Nat.le_of_eq (hothers j e)

/-! ## Runs that are never endless

Without a bound on their length: it is enough that what each process has ahead of it
is well founded. -/

/-- No run from `s₀` is endless, and one that cannot go on has reached the goal. -/
structure Finishes (R : σ → σ → Prop) (s₀ : σ) (goal : σ → Prop) : Prop where
  finite : ∀ f : ℕ → σ, f 0 = s₀ → ∃ n, ¬R (f n) (f (n + 1))
  reached : ∀ s, Relation.ReflTransGen R s₀ s → (∀ s', ¬R s s') → goal s

section Finishes

variable {R : σ → σ → Prop}

theorem Finishes.of_wellFounded (hwf : WellFounded fun s' s => R s s')
    (hend : ∀ s, Relation.ReflTransGen R s₀ s → (∀ s', ¬R s s') → goal s) :
    Finishes R s₀ goal where
  finite f _ := by
    have : IsWellFounded σ fun s' s => R s s' := ⟨hwf⟩
    exact WellFounded.not_rel_apply_succ (r := fun s' s => R s s') f
  reached := hend

omit [Fintype ι] in
/-- One of finitely many processes moves in each step, and none of them moves
forever. -/
theorem wellFounded_of_moves [Finite ι] {β : Type} {later : β → β → Prop}
    (hwf : WellFounded fun b a => later a b) {part : σ → ι → β}
    (hmoves : ∀ s s', R s s' → ∃ i, later (part s i) (part s' i) ∧
      ∀ j, j ≠ i → part s' j = part s j) : WellFounded fun s' s => R s s' := by
  have hlex : WellFounded (Pi.Lex (WellOrderingRel (α := ι))
      fun {_} b a => later a b) := Pi.Lex.wellFounded _ fun _ => hwf
  refine Subrelation.wf ?_ (InvImage.wf part hlex)
  intro s' s hstep
  obtain ⟨i, hi, hothers⟩ := hmoves s s' hstep
  exact ⟨i, fun j hj => hothers j (ne_of_irrefl hj), hi⟩

end Finishes

end InvestApi.Lts
