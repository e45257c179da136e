import InvestApi.Lts.Progress
import InvestApi.Pg.Deadlock

/-!
# Transactions that come to an end

A body is a tree, so a transaction has only finitely many statements ahead of it,
whatever they answer, and finitely many calls cannot go on forever. They can only
stop where each of them waits for another, which is a circle. So calls that lock
along an order all end, and nobody has to abort one of them to that effect: a call
that is aborted is one whose own statement has failed.
-/

namespace InvestApi.Pg

variable {K : Type} {V : K → Type} {γ ε α β ι : Type} [DecidableEq K]

/-! ## What a transaction has ahead of it -/

/-- One step takes some transaction with body `p` to one with body `p'`. -/
def Prog.Next (p p' : Prog V γ ε α) : Prop :=
  ∃ (d : Db V) (free : K → Prop) (s s' : Session V γ), TxStep d free (p, s) (p', s')

theorem Prog.acc_scan {act : (k : K) → V k → RowAct (V k)}
    {next : List (KeyedRow V) → Prog V γ ε α}
    (h : ∀ rows, Acc (fun p' p : Prog V γ ε α => p.Next p') (next rows)) (todo : List K) :
    ∀ acc, Acc (fun p' p : Prog V γ ε α => p.Next p') (.scan todo act acc next) := by
  induction todo with
  | nil =>
      refine fun acc => ⟨_, ?_⟩
      rintro p' ⟨d, free, s, s', hstep⟩
      cases hstep with
      | done => exact h acc
  | cons k ks ih =>
      refine fun acc => ⟨_, ?_⟩
      rintro p' ⟨d, free, s, s', hstep⟩
      cases hstep with
      | gone => exact ih acc
      | skip => exact ih acc
      | put => exact ih _
      | delete => exact ih acc

theorem Prog.acc_next (p : Prog V γ ε α) : Acc (fun p' p : Prog V γ ε α => p.Next p') p := by
  induction p with
  | ret a => exact ⟨_, fun p' ⟨_, _, _, _, hstep⟩ => by cases hstep⟩
  | raise e => exact ⟨_, fun p' ⟨_, _, _, _, hstep⟩ => by cases hstep⟩
  | select next ih =>
      refine ⟨_, ?_⟩
      rintro p' ⟨d, free, s, s', hstep⟩
      cases hstep with
      | select => exact ih _
  | update tag cand act next ih =>
      refine ⟨_, ?_⟩
      rintro p' ⟨d, free, s, s', hstep⟩
      cases hstep with
      | update hl => exact acc_scan (ih _) _ _
  | scan todo act acc next ih => exact acc_scan ih todo acc
  | insert rows check next ih =>
      refine ⟨_, ?_⟩
      rintro p' ⟨d, free, s, s', hstep⟩
      cases hstep with
      | insert => exact ih
  | insertIgnore k v next ih =>
      refine ⟨_, ?_⟩
      rintro p' ⟨d, free, s, s', hstep⟩
      cases hstep with
      | insertNew => exact ih
      | insertOld => exact ih

/-- Where a call is. -/
inductive Stage (V : K → Type) (γ ε α : Type) where
  | idle
  | running (p : Prog V γ ε α)
  | ended

inductive Stage.Later : Stage V γ ε α → Stage V γ ε α → Prop
  | start {p} : Later .idle (.running p)
  | run {p p'} (h : p.Next p') : Later (.running p) (.running p')
  | finish {p} : Later (.running p) .ended

theorem Stage.wellFounded_later :
    WellFounded fun b a : Stage V γ ε α => Later a b := by
  have hended : Acc (fun b a : Stage V γ ε α => Later a b) .ended :=
    ⟨_, fun b hb => by cases hb⟩
  have hrunning : ∀ p : Prog V γ ε α, Acc (fun b a : Stage V γ ε α => Later a b)
      (.running p) := by
    intro p
    induction p.acc_next with
    | intro p _ ih =>
        refine ⟨_, fun b hb => ?_⟩
        cases hb with
        | run h => exact ih _ h
        | finish => exact hended
  refine ⟨fun a => ?_⟩
  cases a with
  | idle =>
      refine ⟨_, fun b hb => ?_⟩
      cases hb with
      | start => exact hrunning _
  | running p => exact hrunning p
  | ended => exact hended

/-! ## Nobody goes on forever -/

variable [DecidableEq ι] {S : System ι V γ ε α} {C : State ι V γ ε α → ι → Prop}
  {st st' : State ι V γ ε α}

omit [DecidableEq K] in
def State.stage (st : State ι V γ ε α) (i : ι) : Stage V γ ε α :=
  match st.live i with
  | some t => .running t.1
  | none => if i ∈ st.log.map (·.1) then .ended else .idle

omit [DecidableEq K] in
theorem State.stage_live {i : ι} {t : Prog V γ ε α × Session V γ}
    (h : st.live i = some t) : st.stage i = .running t.1 := by
  rw [stage, h]

omit [DecidableEq K] in
theorem State.stage_of_same {i : ι} (hlive : st'.live i = st.live i)
    (hlog : i ∈ st'.log.map (·.1) ↔ i ∈ st.log.map (·.1)) : st'.stage i = st.stage i := by
  rw [stage, stage, hlive]
  simp only [hlog]

/-- A step moves one call. -/
theorem Step.moves (h : Step S C st st') :
    ∃ i, (st.stage i).Later (st'.stage i) ∧ ∀ j, j ≠ i → st'.stage j = st.stage j := by
  have ended : ∀ {i : ι} {t : Prog V γ ε α × Session V γ} {w : World ι V ε α}
      {f : Finish ε α}, st.live i = some t → w.log = st.log ++ [(i, f)] →
      (st.stage i).Later (State.stage ⟨w, Function.update st.live i none⟩ i) ∧
        ∀ j, j ≠ i → State.stage ⟨w, Function.update st.live i none⟩ j = st.stage j := by
    intro i t w f hi hlog
    constructor
    · have hended : State.stage ⟨w, Function.update st.live i none⟩ i = .ended := by
        simp [State.stage, hlog]
      rw [State.stage_live hi, hended]
      exact .finish
    · intro j hj
      refine State.stage_of_same (Function.update_of_ne hj _ _) ?_
      simp [hlog, hj]
  cases h with
  | @start i hl hg hd =>
      refine ⟨i, ?_, fun j hj => State.stage_of_same (Function.update_of_ne hj _ _) Iff.rfl⟩
      have hidle : st.stage i = .idle := by
        rw [State.stage, hl]
        exact if_neg hg
      rw [hidle, State.stage_live (Function.update_self i _ _)]
      exact .start
  | @run i t t' hl ht =>
      refine ⟨i, ?_, fun j hj => State.stage_of_same (Function.update_of_ne hj _ _) Iff.rfl⟩
      rw [State.stage_live hl, State.stage_live (Function.update_self i _ _)]
      exact .run ⟨_, _, _, _, ht⟩
  | commit hl hc => exact ⟨_, ended hl rfl⟩
  | rollback hl => exact ⟨_, ended hl rfl⟩
  | abort hl => exact ⟨_, ended hl rfl⟩

/-- Finitely many calls take finitely many steps, however they are scheduled. -/
theorem wellFounded_step [Finite ι] : WellFounded fun st' st => Step S C st st' :=
  Lts.wellFounded_of_moves Stage.wellFounded_later fun _ _ => Step.moves

/-! ## Nobody stops -/

/-- The statement of call `i` fails: it waits for nobody and cannot be done. -/
structure State.Failed (st : State ι V γ ε α) (i : ι) (t : Prog V γ ε α × Session V γ) :
    Prop where
  live : st.live i = some t
  asks : (∀ a, t.1 ≠ .ret a) ∧ ∀ e, t.1 ≠ .raise e
  free : ∀ k ∈ t.1.wanted, st.free i k
  fails : ∀ t', ¬TxStep st.db (st.free i) t t'

/-- A step in which no call is aborted but one whose statement has failed. -/
inductive Goes (S : System ι V γ ε α) : State ι V γ ε α → State ι V γ ε α → Prop
  | start {s i} (hl : s.live i = none) (hg : i ∉ s.log.map (·.1))
      (hd : ∀ k ∈ S.draws i, S.fresh s.db k = true ∧ s.free i k) :
      Goes S s { s with
        live := Function.update s.live i
          (some (S.body i, Session.init (S.draws i))) }
  | run {s i t t'} (hl : s.live i = some t)
      (ht : TxStep s.db (s.free i) t t') :
      Goes S s { s with live := Function.update s.live i (some t') }
  | commit {s i a σ} (hl : s.live i = some (.ret a, σ)) :
      Goes S s ⟨s.toWorld.commit i a σ, Function.update s.live i none⟩
  | rollback {s i e σ} (hl : s.live i = some (.raise e, σ)) :
      Goes S s ⟨s.toWorld.note i (.raised e), Function.update s.live i none⟩
  | fail {s i t} (hf : s.Failed i t) :
      Goes S s ⟨s.toWorld.note i .aborted, Function.update s.live i none⟩

theorem Goes.step (h : Goes S st st') : Step S (fun _ _ => True) st st' := by
  cases h with
  | start hl hg hd => exact .start hl hg hd
  | run hl ht => exact .run hl ht
  | commit hl => exact .commit hl trivial
  | rollback hl => exact .rollback hl
  | fail hf => exact .abort hf.live

theorem reach_of_goes (h : Relation.ReflTransGen (Goes S) st st') : Reach S st st' :=
  Relation.ReflTransGen.mono (fun _ _ => Goes.step) _ _ h

/-- Who waits for nobody can go on. -/
theorem goes_of_free {i : ι} {t : Prog V γ ε α × Session V γ} (hl : st.live i = some t)
    (hfree : ∀ k ∈ t.1.wanted, st.free i k) : ∃ st', Goes S st st' := by
  by_cases hret : ∃ a, t.1 = .ret a
  · obtain ⟨p, σ⟩ := t
    obtain ⟨a, rfl⟩ := hret
    exact ⟨_, .commit hl⟩
  by_cases hraise : ∃ e, t.1 = .raise e
  · obtain ⟨p, σ⟩ := t
    obtain ⟨e, rfl⟩ := hraise
    exact ⟨_, .rollback hl⟩
  by_cases hstep : ∃ t', TxStep st.db (st.free i) t t'
  · obtain ⟨t', ht⟩ := hstep
    exact ⟨_, .run hl ht⟩
  · exact ⟨_, .fail ⟨hl, ⟨not_exists.mp hret, not_exists.mp hraise⟩, hfree,
      not_exists.mp hstep⟩⟩

omit [DecidableEq K] [DecidableEq ι] in
theorem State.free_of_not_waits {i : ι} {t : Prog V γ ε α × Session V γ}
    (hl : st.live i = some t) (h : ∀ j, ¬st.WaitsFor i j) :
    ∀ k ∈ t.1.wanted, st.free i k := by
  intro k hk j hj u hu hku
  exact h j ⟨Ne.symm hj, t, hl, u, hu, k, hk, hku⟩

omit [DecidableEq K] [DecidableEq ι] in
/-- Unless some wait in a circle, one of those in flight waits for nobody. -/
theorem State.exists_not_waits [Finite ι] (h : ¬st.Deadlocked) {i : ι}
    (hi : st.live i ≠ none) : ∃ j, st.live j ≠ none ∧ ∀ k, ¬st.WaitsFor j k := by
  have : Std.Irrefl fun j k => Relation.TransGen st.WaitsFor k j :=
    ⟨fun j hj => h ⟨j, hj⟩⟩
  have : IsTrans ι fun j k => Relation.TransGen st.WaitsFor k j :=
    ⟨fun _ _ _ hjk hkl => hkl.trans hjk⟩
  have hwf := Finite.wellFounded_of_trans_of_irrefl
    fun j k => Relation.TransGen st.WaitsFor k j
  obtain ⟨j, hj, hmin⟩ := hwf.has_min {j | st.live j ≠ none} ⟨i, hi⟩
  refine ⟨j, hj, fun k hk => ?_⟩
  have hlive : st.live k ≠ none := by
    obtain ⟨_, _, _, u, hu, _⟩ := hk
    simp [Option.mem_def.mp hu]
  exact hmin k hlive (.single hk)

/-! ## Every run -/

/-- Every call has answered, save those whose drawn ids are taken. -/
structure State.Done (S : System ι V γ ε α) (st : State ι V γ ε α) : Prop where
  quiet : ∀ i, st.live i = none
  answered : ∀ i, i ∈ st.log.map (·.1) ∨ ∃ k ∈ S.draws i, S.fresh st.db k = false

theorem done_of_stuck [Finite ι] (h : ¬st.Deadlocked) (hstuck : ∀ st', ¬Goes S st st') :
    st.Done S := by
  have hquiet : ∀ i, st.live i = none := by
    by_contra hsome
    obtain ⟨i, hi⟩ := not_forall.mp hsome
    obtain ⟨j, hj, hfree⟩ := State.exists_not_waits h hi
    obtain ⟨t, ht⟩ := Option.ne_none_iff_exists'.mp hj
    obtain ⟨st', hgo⟩ := goes_of_free ht (State.free_of_not_waits ht hfree)
    exact hstuck st' hgo
  refine ⟨hquiet, fun i => ?_⟩
  by_contra hnot
  push Not at hnot
  obtain ⟨hlog, hfresh⟩ := hnot
  refine hstuck _ (.start (hquiet i) hlog fun k hk => ⟨?_, fun j _ t ht => ?_⟩)
  · simpa using hfresh k hk
  · rw [hquiet j] at ht
    cases ht

/-- Calls that lock along an order all come to their end, from wherever they are. -/
theorem LockOrder.finishes [Finite ι] {r : K → K → Prop} (h : LockOrder S r) {d : Db V}
    (hr : Reach S (State.init d) st) : Lts.Finishes (Goes S) st (State.Done S) := by
  have hwf : WellFounded fun st' st => Goes S st st' :=
    Subrelation.wf (fun hgo => Goes.step hgo) (wellFounded_step (C := fun _ _ => True))
  refine .of_wellFounded hwf fun st' hgo hstuck => ?_
  exact done_of_stuck (h.not_deadlocked (hr.trans (reach_of_goes hgo))) hstuck

end InvestApi.Pg
