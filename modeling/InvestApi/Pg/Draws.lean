import Mathlib.Data.Option.Basic
import InvestApi.Pg.Sched

/-!
# Ids that are held before they are used

A call that holds the ids it has drawn is only more in the way than one that does
not: whatever can happen with the ids held can happen without, to the same rows and
the same answers. So what is proved of the calls without their draws is true of them
with any draws.
-/

namespace InvestApi.Pg

variable {K : Type} {V : K → Type} {γ ε α ι : Type} [DecidableEq K]

/-- The same work done with fewer locks. -/
structure Session.Within (s' s : Session V γ) : Prop where
  writes : s'.writes = s.writes
  trace : s'.trace = s.trace
  locks : ∀ k ∈ s'.locks, k ∈ s.locks

section Within

variable {s' s : Session V γ}

theorem Session.Within.view (h : s'.Within s) (d : Db V) : s'.view d = s.view d := by
  rw [Session.view, Session.view, h.writes]

omit [DecidableEq K] in
theorem Session.Within.tag (h : s'.Within s) (t : γ) : (s'.tag t).Within (s.tag t) where
  writes := h.writes
  trace := by rw [Session.tag, Session.tag, h.trace]
  locks := h.locks

omit [DecidableEq K] in
theorem Session.Within.put (h : s'.Within s) (k : K) (v : Option (V k)) :
    (s'.put k v).Within (s.put k v) where
  writes := by rw [Session.writes_put, Session.writes_put, h.writes]
  trace := h.trace
  locks := by
    intro k' hk'
    rcases List.mem_cons.mp hk' with rfl | hk'
    · exact List.mem_cons_self
    · exact List.mem_cons_of_mem _ (h.locks k' hk')

omit [DecidableEq K] in
theorem Session.Within.putRows {rows : List (KeyedRow V)} :
    ∀ {s' s : Session V γ}, s'.Within s → (s'.putRows rows).Within (s.putRows rows) := by
  induction rows with
  | nil => exact fun h => h
  | cons r rows ih => exact fun h => ih (h.put r.1 (some r.2))

/-- What a transaction can do it can do with fewer locks, where more is free. -/
theorem TxStep.within {d : Db V} {free free' : K → Prop} {p p₁ : Prog V γ ε α}
    {s₁ : Session V γ} (h : TxStep d free (p, s) (p₁, s₁)) (hs : s'.Within s)
    (hfree : ∀ k, free k → free' k) :
    ∃ s₁', TxStep d free' (p, s') (p₁, s₁') ∧ s₁'.Within s₁ := by
  have hview := hs.view d
  cases h with
  | select =>
      rw [← hview]
      exact ⟨_, .select, hs⟩
  | update hl =>
      rw [← hview] at hl ⊢
      exact ⟨_, .update hl, hs.tag _⟩
  | done => exact ⟨_, .done, hs⟩
  | gone hf hv => exact ⟨_, .gone (hfree _ hf) (hview ▸ hv), hs⟩
  | skip hf hv ha => exact ⟨_, .skip (hfree _ hf) (hview ▸ hv) ha, hs⟩
  | put hf hv ha => exact ⟨_, .put (hfree _ hf) (hview ▸ hv) ha, hs.put _ _⟩
  | delete hf hv ha => exact ⟨_, .delete (hfree _ hf) (hview ▸ hv) ha, hs.put _ _⟩
  | insert hf hn hc =>
      refine ⟨_, .insert (fun r hr => ?_) hn (hview ▸ hc), hs.putRows⟩
      exact ⟨hfree _ (hf r hr).1, hview ▸ (hf r hr).2⟩
  | insertNew hf hv => exact ⟨_, .insertNew (hfree _ hf) (hview ▸ hv), hs.put _ _⟩
  | insertOld hf hv => exact ⟨_, .insertOld (hfree _ hf) (hview ▸ hv), hs⟩

end Within

/-! ## Runs -/

/-- The calls of `S`, none of which holds an id before it inserts it. -/
def System.undrawn (S : System ι V γ ε α) : System ι V γ ε α :=
  { S with draws := fun _ => [] }

/-- The same world and the same transactions in flight, with fewer locks. -/
structure State.Within (st' st : State ι V γ ε α) : Prop where
  world : st'.toWorld = st.toWorld
  live : ∀ i, Option.Rel (fun t' t => t'.1 = t.1 ∧ t'.2.Within t.2) (st'.live i) (st.live i)

section Runs

variable {S : System ι V γ ε α} {st st' : State ι V γ ε α}

omit [DecidableEq K] in
theorem State.Within.free (h : st'.Within st) {i : ι} {k : K} (hk : st.free i k) :
    st'.free i k := by
  intro j hj t' ht'
  have hrel := h.live j
  rw [ht'] at hrel
  cases hlive : st.live j with
  | none =>
      rw [hlive] at hrel
      cases hrel
  | some t =>
      rw [hlive] at hrel
      cases hrel with
      | some hrel => exact fun hmem => hk j hj t hlive (hrel.2.locks k hmem)

omit [DecidableEq K] in
theorem State.Within.some (h : st'.Within st) {i : ι} {p : Prog V γ ε α} {s : Session V γ}
    (hl : st.live i = some (p, s)) : ∃ s', st'.live i = some (p, s') ∧ s'.Within s := by
  have hrel := h.live i
  rw [hl] at hrel
  cases hlive : st'.live i with
  | none =>
      rw [hlive] at hrel
      cases hrel
  | some t' =>
      rw [hlive] at hrel
      cases hrel with
      | some hrel =>
          obtain ⟨p', s'⟩ := t'
          obtain ⟨rfl, hs⟩ := hrel
          exact ⟨s', rfl, hs⟩

variable [DecidableEq ι]

omit [DecidableEq K] in
theorem State.Within.update (h : st'.Within st) {w' w : World ι V ε α} (hw : w' = w) {i : ι}
    {t' t : Option (Prog V γ ε α × Session V γ)}
    (ht : Option.Rel (fun t' t => t'.1 = t.1 ∧ t'.2.Within t.2) t' t) :
    State.Within ⟨w', Function.update st'.live i t'⟩ ⟨w, Function.update st.live i t⟩ where
  world := hw
  live j := by
    dsimp only
    by_cases hj : j = i
    · subst hj
      rwa [Function.update_self, Function.update_self]
    · rw [Function.update_of_ne hj, Function.update_of_ne hj]
      exact h.live j

theorem Step.within {C : State ι V γ ε α → ι → Prop} {st₁ : State ι V γ ε α}
    (hstep : Step S C st st₁) (h : st'.Within st) :
    ∃ st₁', Step S.undrawn (fun _ _ => True) st' st₁' ∧ st₁'.Within st₁ := by
  obtain ⟨w', live'⟩ := st'
  obtain ⟨w, live⟩ := st
  obtain rfl : w' = w := h.world
  have hnone : ∀ i, live i = none → live' i = none := by
    intro i hi
    have hrel := h.live i
    dsimp only at hrel
    rw [hi] at hrel
    cases hl : live' i with
    | none => rfl
    | some t =>
        rw [hl] at hrel
        cases hrel
  cases hstep with
  | @start i hl hg hd =>
      refine ⟨_, .start (hnone i hl) hg fun k hk => absurd hk List.not_mem_nil, ?_⟩
      exact h.update rfl (.some ⟨rfl, rfl, rfl, fun k hk => absurd hk List.not_mem_nil⟩)
  | @run i t t₁ hl ht =>
      obtain ⟨s', hl', hs⟩ := h.some (p := t.1) (s := t.2) hl
      obtain ⟨s₁', ht', hs₁⟩ := ht.within hs fun k => h.free
      exact ⟨_, .run hl' ht', h.update rfl (.some ⟨rfl, hs₁⟩)⟩
  | @commit i a σ hl hc =>
      obtain ⟨s', hl', hs⟩ := h.some hl
      refine ⟨_, .commit hl' trivial, h.update ?_ .none⟩
      rw [World.commit, World.commit, hs.view]
  | rollback hl =>
      obtain ⟨s', hl', _⟩ := h.some hl
      exact ⟨_, .rollback hl', h.update rfl .none⟩
  | @abort i t hl =>
      obtain ⟨s', hl', _⟩ := h.some (p := t.1) (s := t.2) hl
      exact ⟨_, .abort hl', h.update rfl .none⟩

/-- A run with the ids held is one without, to the same rows and answers. -/
theorem ReachUnder.undrawn {C : State ι V γ ε α → ι → Prop} {d : Db V}
    (hr : ReachUnder S C (State.init d) st) :
    ∃ st', Reach S.undrawn (State.init d) st' ∧ st'.Within st := by
  induction hr with
  | refl => exact ⟨_, .refl, rfl, fun _ => .none⟩
  | tail _ hstep ih =>
      obtain ⟨st', hr', hw⟩ := ih
      obtain ⟨st₁', hstep', hw₁⟩ := hstep.within hw
      exact ⟨st₁', hr'.tail hstep', hw₁⟩

end Runs

end InvestApi.Pg
