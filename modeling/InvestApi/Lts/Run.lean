import Mathlib.Data.List.Chain

/-!
# Runs of a labelled system

A system is a relation between a state, an event and the next state. Its runs
may be held to a condition on each event at the state it happens in; the
condition that always holds gives every run.
-/

namespace InvestApi.Lts

variable {σ ε : Type}

/-- One step of `step` whose event meets `ok` where it happens. -/
def Next (step : σ → ε → σ → Prop) (ok : σ → ε → Prop) (s s' : σ) : Prop :=
  ∃ e, ok s e ∧ step s e s'

/-- `s` ends a run from `s₀` whose every event meets `ok`. -/
abbrev Reach (step : σ → ε → σ → Prop) (ok : σ → ε → Prop) : σ → σ → Prop :=
  Relation.ReflTransGen (Next step ok)

/-- The runs without a condition. -/
abbrev Reachable (step : σ → ε → σ → Prop) : σ → σ → Prop :=
  Reach step fun _ _ => True

variable {step : σ → ε → σ → Prop} {ok : σ → ε → Prop} {s₀ s : σ}

theorem Reach.then (h : Reach step ok s₀ s) {s' : σ} (e : ε) (hok : ok s e)
    (hstep : step s e s') : Reach step ok s₀ s' :=
  h.tail ⟨e, hok, hstep⟩

theorem Reachable.then (h : Reachable step s₀ s) {s' : σ} (e : ε) (hstep : step s e s') :
    Reachable step s₀ s' :=
  h.tail ⟨e, trivial, hstep⟩

/-- What holds at the start and is kept by every step holds at the end. -/
theorem Reach.invariant {I : σ → Prop} (h : Reach step ok s₀ s) (h₀ : I s₀)
    (hstep : ∀ s e s', I s → ok s e → step s e s' → I s') : I s := by
  induction h with
  | refl => exact h₀
  | tail _ hnext ih =>
      obtain ⟨e, hok, hs⟩ := hnext
      exact hstep _ e _ ih hok hs

/-- A condition that implies another leaves fewer runs. -/
theorem Reach.weaken {ok' : σ → ε → Prop} (h : Reach step ok s₀ s)
    (himp : ∀ s e, ok s e → ok' s e) : Reach step ok' s₀ s := by
  refine Relation.ReflTransGen.mono ?_ s₀ s h
  rintro a b ⟨e, hok, hs⟩
  exact ⟨e, himp a e hok, hs⟩

/-- A map under which every step is one of another system, or none at all,
takes runs to runs. -/
theorem Reach.project {σ' ε' : Type} {step' : σ' → ε' → σ' → Prop} (f : σ → σ')
    (h : Reach step ok s₀ s)
    (hstep : ∀ s e s', step s e s' → f s' = f s ∨ ∃ e', step' (f s) e' (f s')) :
    Reachable step' (f s₀) (f s) := by
  induction h with
  | refl => exact .refl
  | tail _ hnext ih =>
      obtain ⟨e, _, hs⟩ := hnext
      rcases hstep _ e _ hs with hsame | ⟨e', he'⟩
      · rw [hsame]
        exact ih
      · exact Reachable.then ih e' he'

/-! ## Runs with their events -/

/-- `s` ends a run from `s₀` with the events `past`, the newest first. -/
inductive Trace (step : σ → ε → σ → Prop) (ok : σ → ε → Prop) (s₀ : σ) :
    List ε → σ → Prop
  | nil : Trace step ok s₀ [] s₀
  | cons {past s e s'} (h : Trace step ok s₀ past s) (hok : ok s e) (hstep : step s e s') :
      Trace step ok s₀ (e :: past) s'

/-- What holds at the start, of no events, and is kept by every step. -/
theorem Trace.invariant {I : List ε → σ → Prop} {past : List ε}
    (h : Trace step ok s₀ past s) (h₀ : I [] s₀)
    (hstep : ∀ past s e s', I past s → ok s e → step s e s' → I (e :: past) s') :
    I past s := by
  induction h with
  | nil => exact h₀
  | cons _ hok hs ih => exact hstep _ _ _ _ ih hok hs

/-- A run has its events. -/
theorem Reach.exists_trace (h : Reach step ok s₀ s) : ∃ past, Trace step ok s₀ past s := by
  induction h with
  | refl => exact ⟨[], .nil⟩
  | tail _ hnext ih =>
      obtain ⟨past, htrace⟩ := ih
      obtain ⟨e, hok, hs⟩ := hnext
      exact ⟨e :: past, .cons htrace hok hs⟩

/-- `s` ends a run from `s₀` whose events come to `n`, as `cost` counts them. -/
inductive Tally (step : σ → ε → σ → Prop) (ok : σ → ε → Prop) (cost : σ → ε → Nat) (s₀ : σ) :
    Nat → σ → Prop
  | nil : Tally step ok cost s₀ 0 s₀
  | cons {n s e s'} (h : Tally step ok cost s₀ n s) (hok : ok s e) (hstep : step s e s') :
      Tally step ok cost s₀ (n + cost s e) s'

/-- What holds at the start, at nothing, and is kept by every step. -/
theorem Tally.invariant {cost : σ → ε → Nat} {I : Nat → σ → Prop} {n : Nat}
    (h : Tally step ok cost s₀ n s) (h₀ : I 0 s₀)
    (hstep : ∀ n s e s', I n s → ok s e → step s e s' → I (n + cost s e) s') : I n s := by
  induction h with
  | nil => exact h₀
  | cons _ hok hs ih => exact hstep _ _ _ _ ih hok hs

theorem Reach.exists_tally (h : Reach step ok s₀ s) (cost : σ → ε → Nat) :
    ∃ n, Tally step ok cost s₀ n s := by
  induction h with
  | refl => exact ⟨0, .nil⟩
  | tail _ hnext ih =>
      obtain ⟨n, htally⟩ := ih
      obtain ⟨e, hok, hs⟩ := hnext
      exact ⟨n + cost _ e, .cons htally hok hs⟩

/-- The state after the events `past`, the newest first. -/
def replay (fire : σ → ε → Option σ) (s₀ : σ) : List ε → Option σ
  | [] => some s₀
  | e :: past => (replay fire s₀ past).bind fun s => fire s e

theorem trace_of_replay {fire : σ → ε → Option σ}
    (hfire : ∀ s e s', fire s e = some s' → ok s e ∧ step s e s') {past : List ε}
    (h : replay fire s₀ past = some s) : Trace step ok s₀ past s := by
  induction past generalizing s with
  | nil =>
      obtain rfl := Option.some.inj h
      exact .nil
  | cons e past ih =>
      rw [replay, Option.bind_eq_some_iff] at h
      obtain ⟨mid, hmid, hs⟩ := h
      obtain ⟨hok, hstep⟩ := hfire mid e s hs
      exact .cons (ih hmid) hok hstep

theorem exists_trace {fire : σ → ε → Option σ}
    (hfire : ∀ s e s', fire s e = some s' → ok s e ∧ step s e s') (s₀ : σ) (past : List ε)
    (p : σ → Bool) (h : (replay fire s₀ past).any p = true) :
    ∃ s, Trace step ok s₀ past s ∧ p s = true := by
  cases hs : replay fire s₀ past with
  | none =>
      rw [hs] at h
      cases h
  | some s =>
      rw [hs] at h
      exact ⟨s, trace_of_replay hfire hs, h⟩

/-- The state after the events `past`, the newest first, and what they come to. -/
def tally (fire : σ → ε → Option σ) (cost : σ → ε → Nat) (s₀ : σ) : List ε → Option (Nat × σ)
  | [] => some (0, s₀)
  | e :: past => (tally fire cost s₀ past).bind fun r =>
      (fire r.2 e).map fun s => (r.1 + cost r.2 e, s)

theorem tally_sound {fire : σ → ε → Option σ} {cost : σ → ε → Nat}
    (hfire : ∀ s e s', fire s e = some s' → ok s e ∧ step s e s') {past : List ε} {n : Nat}
    (h : tally fire cost s₀ past = some (n, s)) : Tally step ok cost s₀ n s := by
  induction past generalizing n s with
  | nil =>
      obtain ⟨rfl, rfl⟩ := Prod.mk.inj (Option.some.inj h)
      exact .nil
  | cons e past ih =>
      rw [tally, Option.bind_eq_some_iff] at h
      obtain ⟨⟨k, mid⟩, hmid, hs⟩ := h
      obtain ⟨s', hs', heq⟩ := Option.map_eq_some_iff.mp hs
      obtain ⟨rfl, rfl⟩ := Prod.mk.inj heq
      obtain ⟨hok, hstep⟩ := hfire mid e s' hs'
      exact .cons (ih hmid) hok hstep

/-! ## Following a schedule

`fire` does a turn where it is possible. -/

variable {τ : Type} {fire : σ → τ → Option σ} {r : σ → σ → Prop}

/-- The states a schedule goes through, up to the first turn that is not
possible. -/
def follow (fire : σ → τ → Option σ) : List τ → σ → List σ
  | [], _ => []
  | t :: ts, s =>
      match fire s t with
      | none => []
      | some s' => s' :: follow fire ts s'

theorem follow_isChain (hfire : ∀ s t s', fire s t = some s' → r s s')
    (ts : List τ) (s : σ) : List.IsChain r (s :: follow fire ts s) := by
  induction ts generalizing s with
  | nil => exact .singleton s
  | cons t ts ih =>
      rw [follow]
      split
      · exact .singleton s
      · next s' hs' => exact List.isChain_cons_cons.mpr ⟨hfire s t s' hs', ih s'⟩

theorem reach_of_mem_follow (hfire : ∀ s t s', fire s t = some s' → r s s')
    {ts : List τ} {s s' : σ} (h : s' ∈ follow fire ts s) :
    Relation.ReflTransGen r s s' := by
  induction ts generalizing s with
  | nil => simp [follow] at h
  | cons t ts ih =>
      rw [follow] at h
      split at h
      · simp at h
      · next mid hmid =>
          rcases List.mem_cons.mp h with rfl | h
          · exact .single (hfire s t _ hmid)
          · exact .head (hfire s t mid hmid) (ih h)

/-- A schedule that goes through a state with `p` shows that one is
reachable. -/
theorem exists_follow (hfire : ∀ s t s', fire s t = some s' → r s s')
    (ts : List τ) (s : σ) (p : σ → Bool) (h : (follow fire ts s).any p = true) :
    ∃ s', Relation.ReflTransGen r s s' ∧ p s' = true := by
  obtain ⟨s', hs', hp⟩ := List.any_eq_true.mp h
  exact ⟨s', reach_of_mem_follow hfire hs', hp⟩

end InvestApi.Lts
