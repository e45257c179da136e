import Mathlib.Data.Fintype.Basic
import Mathlib.Logic.Relation
import InvestApi.Pg.Prog

/-!
# Interleaved transactions

Any number of calls, each with one transaction body, run statement by
statement over one database. A call starts at any moment, holding the random
keys it draws; it waits for a row another transaction holds; it may abort at
any moment; at COMMIT its writes reach the committed rows at once and its
locks go. The log keeps how every finished call ended, in that order.

`Step` takes a condition on COMMITs, so that the runs in which every commit
meets it are a relation of their own; `Reach` is the unconditional one. `fire`
is the same step as a function, for following one schedule by evaluation.
-/

namespace InvestApi.Pg

variable {K : Type} {V : K → Type} {γ ε α ι : Type}

/-- The calls of a run. A drawn key is one `fresh` accepts at the start of
the call and nobody else holds: a random id no row and no call has. -/
structure System (ι : Type) (V : K → Type) (γ ε α : Type) where
  body : ι → Prog V γ ε α
  draws : ι → List K
  fresh : Db V → K → Bool

/-- What everybody can see: the committed rows and the finished calls. -/
structure World (ι : Type) (V : K → Type) (ε α : Type) where
  db : Db V
  log : List (ι × Finish ε α)

/-- The world and the transactions in flight. -/
structure State (ι : Type) (V : K → Type) (γ ε α : Type) extends
    World ι V ε α where
  live : ι → Option (Prog V γ ε α × Session V γ)

def Session.init (draws : List K) : Session V γ := ⟨[], draws, []⟩

@[simp] theorem Session.locks_init (draws : List K) :
    (Session.init draws : Session V γ).locks = draws := rfl

@[simp] theorem Session.writes_init (draws : List K) :
    (Session.init draws : Session V γ).writes = [] := rfl

@[simp] theorem Session.view_init [DecidableEq K] (draws : List K) (d : Db V) :
    (Session.init draws : Session V γ).view d = d := rfl

theorem Session.held_init (draws : List K) :
    (Session.init draws : Session V γ).Held := by
  intro k hk
  simp [Session.init] at hk

/-- What a call that runs with nobody else about, and nothing failing, answers,
and the rows it leaves. -/
def Prog.alone [DecidableEq K] (d : Db V) (p : Prog V γ ε α) (draws : List K) :
    Finish ε α × Db V :=
  match p.exec d none (Session.init draws) with
  | (.committed a, s) => (.committed a, s.view d)
  | (.raised e, _) => (.raised e, d)
  | (.aborted, _) => (.aborted, d)

namespace World

def note (w : World ι V ε α) (i : ι) (f : Finish ε α) : World ι V ε α :=
  ⟨w.db, w.log ++ [(i, f)]⟩

def commit [DecidableEq K] (w : World ι V ε α) (i : ι) (a : α)
    (s : Session V γ) : World ι V ε α :=
  ⟨s.view w.db, w.log ++ [(i, .committed a)]⟩

@[simp] theorem note_db (w : World ι V ε α) (i : ι) (f : Finish ε α) :
    (w.note i f).db = w.db := rfl

@[simp] theorem note_log (w : World ι V ε α) (i : ι) (f : Finish ε α) :
    (w.note i f).log = w.log ++ [(i, f)] := rfl

variable [DecidableEq K]

@[simp] theorem commit_db (w : World ι V ε α) (i : ι) (a : α)
    (s : Session V γ) : (w.commit i a s).db = s.view w.db := rfl

@[simp] theorem commit_log (w : World ι V ε α) (i : ι) (a : α)
    (s : Session V γ) :
    (w.commit i a s).log = w.log ++ [(i, .committed a)] := rfl

end World

namespace State

/-- Nobody but `i` holds `k`. -/
def free (s : State ι V γ ε α) (i : ι) (k : K) : Prop :=
  ∀ j, j ≠ i → ∀ t, s.live j = some t → k ∉ t.2.locks

/-- The state in which nothing has started. -/
def init (d : Db V) : State ι V γ ε α := ⟨⟨d, []⟩, fun _ => none⟩

instance [Fintype ι] [DecidableEq ι] [DecidableEq K]
    (s : State ι V γ ε α) (i : ι) (k : K) : Decidable (s.free i k) :=
  decidable_of_iff
    (∀ j, j ≠ i → (s.live j).all (fun t => decide (k ∉ t.2.locks)) = true) (by
      refine forall_congr' fun j => imp_congr_right fun _ => ?_
      cases s.live j with
      | none => simp
      | some t => simp)

end State

variable [DecidableEq ι] [DecidableEq K]

/-- One step of some call; `C` is asked of every COMMIT. -/
inductive Step (S : System ι V γ ε α) (C : State ι V γ ε α → ι → Prop) :
    State ι V γ ε α → State ι V γ ε α → Prop
  | start {s i} (hl : s.live i = none) (hg : i ∉ s.log.map (·.1))
      (hd : ∀ k ∈ S.draws i, S.fresh s.db k = true ∧ s.free i k) :
      Step S C s { s with
        live := Function.update s.live i
          (some (S.body i, Session.init (S.draws i))) }
  | run {s i t t'} (hl : s.live i = some t)
      (ht : TxStep s.db (s.free i) t t') :
      Step S C s { s with live := Function.update s.live i (some t') }
  | commit {s i a σ} (hl : s.live i = some (.ret a, σ)) (hc : C s i) :
      Step S C s ⟨s.toWorld.commit i a σ, Function.update s.live i none⟩
  | rollback {s i e σ} (hl : s.live i = some (.raise e, σ)) :
      Step S C s ⟨s.toWorld.note i (.raised e), Function.update s.live i none⟩
  | abort {s i t} (hl : s.live i = some t) :
      Step S C s ⟨s.toWorld.note i .aborted, Function.update s.live i none⟩

/-- `s'` can follow `s` in a run whose commits all meet `C`. -/
abbrev ReachUnder (S : System ι V γ ε α) (C : State ι V γ ε α → ι → Prop) :=
  Relation.ReflTransGen (Step S C)

/-- `s'` can follow `s`, whatever the schedule. -/
abbrev Reach (S : System ι V γ ε α) := ReachUnder S fun _ _ => True

/-- A step under one condition is a step under another that its COMMIT meets. -/
theorem Step.imp {S : System ι V γ ε α} {C C' : State ι V γ ε α → ι → Prop}
    {s s' : State ι V γ ε α} (h : Step S C s s')
    (hC : ∀ i a σ, s.live i = some (.ret a, σ) → C s i →
      s'.db = (s.toWorld.commit i a σ).db → C' s i) : Step S C' s s' := by
  cases h with
  | start hl hg hd => exact .start hl hg hd
  | run hl ht => exact .run hl ht
  | commit hl hc => exact .commit hl (hC _ _ _ hl hc rfl)
  | rollback hl => exact .rollback hl
  | abort hl => exact .abort hl

/-- The tables change with a COMMIT and with nothing else. -/
theorem Step.db_cases {S : System ι V γ ε α} {C : State ι V γ ε α → ι → Prop}
    {s s' : State ι V γ ε α} (h : Step S C s s') :
    s'.db = s.db ∨ ∃ i a σ, s.live i = some (.ret a, σ) ∧ C s i ∧
      s'.db = (s.toWorld.commit i a σ).db := by
  cases h with
  | start hl hg hd => exact Or.inl rfl
  | run hl ht => exact Or.inl rfl
  | commit hl hc => exact Or.inr ⟨_, _, _, hl, hc, rfl⟩
  | rollback hl => exact Or.inl rfl
  | abort hl => exact Or.inl rfl

/-- A step ends one call or none; a commit is of a call that has come to its end. -/
theorem Step.log_cases {S : System ι V γ ε α} {C : State ι V γ ε α → ι → Prop}
    {s s' : State ι V γ ε α} (h : Step S C s s') :
    s'.log = s.log ∨ ∃ i f, s'.log = s.log ++ [(i, f)] ∧
      ∀ a, f = .committed a → ∃ σ, s.live i = some (.ret a, σ) := by
  cases h with
  | start hl hg hd => exact Or.inl rfl
  | run hl ht => exact Or.inl rfl
  | @commit i a σ hl hc =>
      refine Or.inr ⟨i, .committed a, rfl, fun b hb => ⟨σ, ?_⟩⟩
      rw [hl, Finish.committed.inj hb]
  | rollback hl => exact Or.inr ⟨_, _, rfl, fun b hb => by cases hb⟩
  | abort hl => exact Or.inr ⟨_, _, rfl, fun b hb => by cases hb⟩

/-- Whoever has begun by the end of a step had begun before it, or just has. -/
theorem Step.begun_cases {S : System ι V γ ε α} {C : State ι V γ ε α → ι → Prop}
    {s s' : State ι V γ ε α} (h : Step S C s s') {i : ι}
    (hi : s'.live i ≠ none ∨ i ∈ s'.log.map (·.1)) :
    (s.live i ≠ none ∨ i ∈ s.log.map (·.1)) ∨ s.live i = none ∧ s'.live i ≠ none := by
  have ended : ∀ {k : ι} {t} {f : Finish ε α}, s.live k = some t →
      i ∈ (s.log ++ [(k, f)]).map (·.1) → s.live i ≠ none ∨ i ∈ s.log.map (·.1) := by
    intro k t f hk hmem
    simp only [List.map_append, List.mem_append, List.map_cons, List.map_nil,
      List.mem_singleton] at hmem
    rcases hmem with hold | hnow
    · exact Or.inr hold
    · exact Or.inl (by simp [hnow, hk])
  by_cases hold : s.live i = none
  · rcases hi with hlive | hmem
    · exact Or.inr ⟨hold, hlive⟩
    · left
      cases h with
      | start hl hg hd => exact Or.inr hmem
      | run hl ht => exact Or.inr hmem
      | commit hl hc => exact ended hl hmem
      | rollback hl => exact ended hl hmem
      | abort hl => exact ended hl hmem
  · exact Or.inl (Or.inl hold)

/-- The log of a run is only ever added to. -/
theorem ReachUnder.log_prefix {S : System ι V γ ε α}
    {C : State ι V γ ε α → ι → Prop} {s s' : State ι V γ ε α}
    (h : ReachUnder S C s s') : ∃ more, s'.log = s.log ++ more := by
  induction h with
  | refl => exact ⟨[], by simp⟩
  | tail _ hstep ih =>
      obtain ⟨more, hmore⟩ := ih
      cases hstep with
      | start hl hg hd => exact ⟨more, hmore⟩
      | run hl ht => exact ⟨more, hmore⟩
      | commit hl hc => exact ⟨_, by simp only [World.commit_log]; rw [hmore, List.append_assoc]⟩
      | rollback hl => exact ⟨_, by simp only [World.note_log]; rw [hmore, List.append_assoc]⟩
      | abort hl => exact ⟨_, by simp only [World.note_log]; rw [hmore, List.append_assoc]⟩

/-- A call ends at most once. -/
theorem ReachUnder.log_nodup {S : System ι V γ ε α}
    {C : State ι V γ ε α → ι → Prop} {d : Db V} {s : State ι V γ ε α}
    (h : ReachUnder S C (State.init d) s) :
    (s.log.map (·.1)).Nodup ∧ ∀ i, s.live i ≠ none → i ∉ s.log.map (·.1) := by
  have ended : ∀ {s : State ι V γ ε α} {i t} (f : Finish ε α) (w : World ι V ε α),
      w.log = s.log ++ [(i, f)] → s.live i = some t →
      ((s.log.map (·.1)).Nodup ∧ ∀ i, s.live i ≠ none → i ∉ s.log.map (·.1)) →
      (w.log.map (·.1)).Nodup ∧
        ∀ j, Function.update s.live i none j ≠ none → j ∉ w.log.map (·.1) := by
    intro s i t f w hlog hl ih
    have hi := ih.2 i (by simp [hl])
    rw [hlog, List.map_append, List.map_cons, List.map_nil]
    refine ⟨List.nodup_append.mpr ⟨ih.1, by simp, ?_⟩, fun j hj => ?_⟩
    · intro a ha b hb hab
      rw [List.mem_singleton] at hb
      have hai : a = i := hab.trans hb
      exact hi (hai ▸ ha)
    · by_cases he : j = i
      · subst he; simp at hj
      · rw [Function.update_of_ne he] at hj
        have hj' := ih.2 j hj
        rw [List.mem_append, List.mem_singleton, not_or]
        exact ⟨hj', he⟩
  induction h with
  | refl => exact ⟨List.nodup_nil, fun i hi => absurd rfl hi⟩
  | tail _ hstep ih =>
      cases hstep with
      | @start i hl hg hd =>
          refine ⟨ih.1, fun j hj => ?_⟩
          by_cases he : j = i
          · exact he ▸ hg
          · exact ih.2 j (by simpa [he] using hj)
      | @run i t t' hl ht =>
          refine ⟨ih.1, fun j hj => ?_⟩
          by_cases he : j = i
          · exact ih.2 j (by rw [he, hl]; simp)
          · exact ih.2 j (by simpa [he] using hj)
      | commit hl hc => exact ended _ _ rfl hl ih
      | rollback hl => exact ended _ _ rfl hl ih
      | abort hl => exact ended _ _ rfl hl ih

theorem reach_of_isChain {σ : Type} {r : σ → σ → Prop} {p : List σ} :
    ∀ {s : σ}, List.IsChain r (s :: p) → ∀ b ∈ p, Relation.ReflTransGen r s b := by
  induction p with
  | nil => simp
  | cons a p ih =>
      intro s hp b hb
      obtain ⟨hsa, hp⟩ := List.isChain_cons_cons.mp hp
      rcases List.mem_cons.mp hb with rfl | hb
      · exact .single hsa
      · exact .head hsa (ih hp b hb)

theorem isChain_of_forall {σ : Type} {r r' : σ → σ → Prop} {P : σ → Prop}
    (himp : ∀ a b, P a → r a b → r' a b) {p : List σ} :
    ∀ {s : σ}, P s → (∀ b ∈ p, P b) → List.IsChain r (s :: p) →
      List.IsChain r' (s :: p) := by
  induction p with
  | nil => simp
  | cons b p ih =>
      intro s hs hP hp
      obtain ⟨hb, hP⟩ := List.forall_mem_cons.mp hP
      obtain ⟨hsb, hp⟩ := List.isChain_cons_cons.mp hp
      exact List.isChain_cons_cons.mpr ⟨himp s b hs hsb, ih hb hP hp⟩

/-- A run as the list of its states. If, as long as `P` holds, a step keeps it
exactly when it is also a step of `r'`, then the runs all of whose states have
`P` are the runs of `r'`. -/
theorem isChain_iff_forall {σ : Type} {r r' : σ → σ → Prop} {P : σ → Prop} {s₀ : σ}
    (hstep : ∀ a b, Relation.ReflTransGen r s₀ a → P a → r a b → (P b ↔ r' a b)) :
    ∀ {p : List σ} {s : σ}, Relation.ReflTransGen r s₀ s → P s →
      List.IsChain r (s :: p) → ((∀ b ∈ p, P b) ↔ List.IsChain r' (s :: p)) := by
  intro p
  induction p with
  | nil => simp
  | cons b p ih =>
      intro s hs hP hp
      obtain ⟨hsb, hp⟩ := List.isChain_cons_cons.mp hp
      have hb := hstep s b hs hP hsb
      rw [List.isChain_cons_cons, List.forall_mem_cons, hb]
      refine and_congr_right fun hr => ?_
      exact ih (hs.tail hsb) (hb.mpr hr) hp

/-! ## Following one schedule -/

/-- A statement step as a function, candidates in the order the snapshot
lists them; `none` when the transaction waits or can only abort. -/
def stmt (d : Db V) (free : K → Bool) :
    Prog V γ ε α × Session V γ → Option (Prog V γ ε α × Session V γ)
  | (.select next, s) => some (next (s.view d), s)
  | (.update tag cand act next, s) =>
      some (.scan (cand (s.view d)) act [] (next (s.view d)), s.tag tag)
  | (.scan [] _ acc next, s) => some (next acc, s)
  | (.scan (k :: ks) act acc next, s) =>
      if free k then
        match (s.view d).get k with
        | none => some (.scan ks act acc next, s)
        | some v =>
            match act k v with
            | .skip => some (.scan ks act acc next, s)
            | .put v' =>
                some (.scan ks act (acc ++ [⟨k, v'⟩]) next, s.put k (some v'))
            | .delete => some (.scan ks act acc next, s.put k none)
            | .fail => none
      else none
  | (.insert rows check next, s) =>
      if rows.all (fun r => free r.1) && Prog.canInsert (s.view d) rows check
      then some (next, s.putRows rows) else none
  | (.insertIgnore k v next, s) =>
      if free k then
        if ((s.view d).get k).isNone then some (next, s.put k (some v))
        else some (next, s)
      else none
  | _ => none

theorem stmt_sound {d : Db V} {freeB : K → Bool} {free : K → Prop}
    (hfree : ∀ k, freeB k = true → free k)
    {t t' : Prog V γ ε α × Session V γ} (h : stmt d freeB t = some t') :
    TxStep d free t t' := by
  obtain ⟨p, s⟩ := t
  cases p with
  | ret a => simp [stmt] at h
  | raise e => simp [stmt] at h
  | select next =>
      simp only [stmt, Option.some.injEq] at h
      subst h
      exact .select
  | update tag cand act next =>
      simp only [stmt, Option.some.injEq] at h
      subst h
      exact .update (List.Perm.refl _)
  | scan todo act acc next =>
      cases todo with
      | nil =>
          simp only [stmt, Option.some.injEq] at h
          subst h
          exact .done
      | cons k ks =>
          simp only [stmt] at h
          split at h
          · next hk =>
              cases hv : (s.view d).get k with
              | none =>
                  simp only [hv, Option.some.injEq] at h
                  subst h
                  exact .gone (hfree k hk) hv
              | some v =>
                  simp only [hv] at h
                  cases ha : act k v with
                  | skip =>
                      simp only [ha, Option.some.injEq] at h
                      subst h
                      exact .skip (hfree k hk) hv ha
                  | put v' =>
                      simp only [ha, Option.some.injEq] at h
                      subst h
                      exact .put (hfree k hk) hv ha
                  | delete =>
                      simp only [ha, Option.some.injEq] at h
                      subst h
                      exact .delete (hfree k hk) hv ha
                  | fail => simp [ha] at h
          · simp at h
  | insert rows check next =>
      simp only [stmt] at h
      split at h
      · next hc =>
          simp only [Prog.canInsert, Bool.and_eq_true, List.all_eq_true,
            Option.isNone_iff_eq_none, decide_eq_true_eq] at hc
          simp only [Option.some.injEq] at h
          subst h
          exact .insert
            (fun r hr => ⟨hfree _ (hc.1 r hr), hc.2.1.1 r hr⟩) hc.2.1.2 hc.2.2
      · simp at h
  | insertIgnore k v next =>
      simp only [stmt] at h
      split at h
      · next hk =>
          split at h
          · next hv =>
              simp only [Option.some.injEq] at h
              subst h
              exact .insertNew (hfree k hk) (Option.isNone_iff_eq_none.mp hv)
          · next hv =>
              simp only [Option.some.injEq] at h
              subst h
              exact .insertOld (hfree k hk)
                (fun hn => hv (Option.isNone_iff_eq_none.mpr hn))
      · simp at h

/-- What a schedule lists: whose turn it is, and to do what. -/
inductive Turn (ι : Type) where
  | start (i : ι)
  | run (i : ι)
  /-- COMMIT or ROLLBACK, as the body ended. -/
  | finish (i : ι)
  | abort (i : ι)

variable [Fintype ι]

def fire (S : System ι V γ ε α) (s : State ι V γ ε α) :
    Turn ι → Option (State ι V γ ε α)
  | .start i =>
      if (s.live i).isNone ∧ i ∉ s.log.map (·.1) ∧
          ∀ k ∈ S.draws i, S.fresh s.db k = true ∧ s.free i k then
        some { s with
          live := Function.update s.live i
            (some (S.body i, Session.init (S.draws i))) }
      else none
  | .run i =>
      match s.live i with
      | none => none
      | some t =>
          match stmt s.db (fun k => decide (s.free i k)) t with
          | none => none
          | some t' =>
              some { s with live := Function.update s.live i (some t') }
  | .finish i =>
      match s.live i with
      | some (.ret a, σ) =>
          some ⟨s.toWorld.commit i a σ, Function.update s.live i none⟩
      | some (.raise e, _) =>
          some ⟨s.toWorld.note i (.raised e), Function.update s.live i none⟩
      | _ => none
  | .abort i =>
      match s.live i with
      | none => none
      | some _ =>
          some ⟨s.toWorld.note i .aborted, Function.update s.live i none⟩

theorem fire_sound {S : System ι V γ ε α} {C : State ι V γ ε α → ι → Prop}
    {s s' : State ι V γ ε α} {t : Turn ι} (hC : ∀ i, C s i)
    (h : fire S s t = some s') : Step S C s s' := by
  cases t with
  | start i =>
      simp only [fire] at h
      split at h
      · next hc =>
          simp only [Option.some.injEq] at h
          subst h
          exact .start (Option.isNone_iff_eq_none.mp hc.1) hc.2.1 hc.2.2
      · simp at h
  | run i =>
      simp only [fire] at h
      split at h
      · simp at h
      · next t hl =>
          split at h
          · simp at h
          · next t' ht =>
              simp only [Option.some.injEq] at h
              subst h
              exact .run hl (stmt_sound (fun k hk => by simpa using hk) ht)
  | finish i =>
      simp only [fire] at h
      split at h
      · next a σ hl =>
          simp only [Option.some.injEq] at h
          subst h
          exact .commit hl (hC i)
      · next e σ hl =>
          simp only [Option.some.injEq] at h
          subst h
          exact .rollback hl
      · simp at h
  | abort i =>
      simp only [fire] at h
      split at h
      · simp at h
      · next t hl =>
          simp only [Option.some.injEq] at h
          subst h
          exact .abort hl

/-- The states a schedule goes through, up to the first turn that is not
possible. -/
def path (S : System ι V γ ε α) :
    List (Turn ι) → State ι V γ ε α → List (State ι V γ ε α)
  | [], _ => []
  | t :: ts, s =>
      match fire S s t with
      | none => []
      | some s' => s' :: path S ts s'

theorem path_isChain (S : System ι V γ ε α) (ts : List (Turn ι))
    (s : State ι V γ ε α) :
    List.IsChain (Step S fun _ _ => True) (s :: path S ts s) := by
  induction ts generalizing s with
  | nil => exact .singleton s
  | cons t ts ih =>
      rw [path]
      split
      · exact .singleton s
      · next s' hs' =>
          exact List.isChain_cons_cons.mpr ⟨fire_sound (fun _ => trivial) hs', ih s'⟩

theorem reach_of_mem_path {S : System ι V γ ε α} {C : State ι V γ ε α → ι → Prop}
    {ts : List (Turn ι)} {s s' : State ι V γ ε α}
    (hC : ∀ s₁ ∈ s :: path S ts s, ∀ i, C s₁ i) (h : s' ∈ path S ts s) :
    ReachUnder S C s s' := by
  induction ts generalizing s with
  | nil => simp [path] at h
  | cons t ts ih =>
      rw [path] at h hC
      split at h
      · simp at h
      · next mid hmid =>
          rw [hmid] at hC
          have hstep := fire_sound (hC s List.mem_cons_self) hmid
          rcases List.mem_cons.mp h with rfl | h
          · exact .single hstep
          · exact .head hstep (ih (fun s₁ hs₁ => hC s₁ (List.mem_cons_of_mem _ hs₁)) h)

/-- A schedule that goes through a state with `p` shows that one is
reachable. -/
theorem exists_reach {S : System ι V γ ε α} {s : State ι V γ ε α}
    (ts : List (Turn ι)) (p : State ι V γ ε α → Bool)
    (h : (path S ts s).any p = true) : ∃ s', Reach S s s' ∧ p s' = true := by
  obtain ⟨s', hs', hp⟩ := List.any_eq_true.mp h
  exact ⟨s', reach_of_mem_path (fun _ _ _ => trivial) hs', hp⟩

/-- The same in the runs whose commits meet a condition that `q` guarantees. -/
theorem exists_reachUnder {S : System ι V γ ε α} {C : State ι V γ ε α → ι → Prop}
    {s : State ι V γ ε α} (q : State ι V γ ε α → Bool)
    (hq : ∀ s, q s = true → ∀ i, C s i) (ts : List (Turn ι))
    (p : State ι V γ ε α → Bool)
    (h : ((s :: path S ts s).all q && (path S ts s).any p) = true) :
    ∃ s', ReachUnder S C s s' ∧ p s' = true := by
  obtain ⟨hall, hany⟩ := Bool.and_eq_true_iff.mp h
  obtain ⟨s', hs', hp⟩ := List.any_eq_true.mp hany
  exact ⟨s', reach_of_mem_path (fun s₁ hs₁ => hq s₁ (List.all_eq_true.mp hall s₁ hs₁)) hs',
    hp⟩

end InvestApi.Pg
