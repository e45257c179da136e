import InvestApi.Pg.Sched

/-!
# The invariant rule for interleaved transactions

`Prog.wp` is what a session must know before a body so that every way the
body can end, with others committing between any two of its statements, is
within its postconditions. What the others may do is the relation `R`: it
sees what the session holds, because nobody else touches that.

`Discipline` is the rule's list of side conditions, and `Discipline.sound`
the rule: the invariant holds in every reachable state, and every session in
flight is where its `wp` says it can be. The induction over runs is done here
once; a client proves one `wp` per body and what a commit does.
-/

namespace InvestApi.Pg

variable {K : Type} [DecidableEq K] {V : K → Type} {γ ε α β ι : Type}

section Wp

variable (R : Session V γ → World ι V ε α → World ι V ε α → Prop)

/-- `P` now and after anything the others may do. -/
def Stable (P : World ι V ε α → Session V γ → Prop)
    (w : World ι V ε α) (s : Session V γ) : Prop :=
  ∀ w', R s w w' → P w' s

/-- The pass of a locking statement over `todo`. -/
def wpScan (act : (k : K) → V k → RowAct (V k))
    (post : List (KeyedRow V) → World ι V ε α → Session V γ → Prop) :
    List K → List (KeyedRow V) → World ι V ε α → Session V γ → Prop
  | [], acc, w, s => Stable R (post acc) w s
  | k :: ks, acc, w, s =>
      match (s.view w.db).get k with
      | none => Stable R (wpScan act post ks acc) w s
      | some v =>
          match act k v with
          | .skip => Stable R (wpScan act post ks acc) w s
          | .put v' =>
              Stable R (wpScan act post ks (acc ++ [⟨k, v'⟩])) w
                (s.put k (some v'))
          | .delete => Stable R (wpScan act post ks acc) w (s.put k none)
          | .fail => True

/-- The weakest precondition of a body for the postconditions `Q` on what it
returns and `E` on what it raises. -/
def Prog.wp (Q : β → World ι V ε α → Session V γ → Prop)
    (E : ε → World ι V ε α → Session V γ → Prop) :
    Prog V γ ε β → World ι V ε α → Session V γ → Prop
  | .ret b, w, s => Q b w s
  | .raise e, w, s => E e w s
  | .select next, w, s => Stable R ((next (s.view w.db)).wp Q E) w s
  | .update tag cand act next, w, s =>
      ∀ l, l.Perm (cand (s.view w.db)) →
        Stable R (wpScan R act (fun acc => (next (s.view w.db) acc).wp Q E) l [])
          w (s.tag tag)
  | .scan todo act acc next, w, s =>
      wpScan R act (fun acc => (next acc).wp Q E) todo acc w s
  | .insert rows check next, w, s =>
      (∀ r ∈ rows, (s.view w.db).get r.1 = none) → (rows.map (·.1)).Nodup →
        check (s.view w.db) = true → Stable R (next.wp Q E) w (s.putRows rows)
  | .insertIgnore k v next, w, s =>
      ((s.view w.db).get k = none →
        Stable R (next.wp Q E) w (s.put k (some v))) ∧
      ((s.view w.db).get k ≠ none → Stable R (next.wp Q E) w s)

variable {R} {Q : β → World ι V ε α → Session V γ → Prop}
  {E : ε → World ι V ε α → Session V γ → Prop}

omit [DecidableEq K] in
theorem Stable.imp {P P' : World ι V ε α → Session V γ → Prop}
    {w : World ι V ε α} {s : Session V γ} (h : Stable R P w s)
    (hp : ∀ w', R s w w' → P w' s → P' w' s) : Stable R P' w s :=
  fun w' hw => hp w' hw (h w' hw)

theorem wpScan_mono {act : (k : K) → V k → RowAct (V k)}
    {post post' : List (KeyedRow V) → World ι V ε α → Session V γ → Prop}
    (hp : ∀ acc w s, post acc w s → post' acc w s) {todo : List K} :
    ∀ {acc w s}, wpScan R act post todo acc w s →
      wpScan R act post' todo acc w s := by
  induction todo with
  | nil =>
      intro acc w s h
      exact h.imp fun w' _ hw => hp acc w' s hw
  | cons k ks ih =>
      intro acc w s h
      simp only [wpScan] at h ⊢
      split at h
      · exact h.imp fun _ _ => ih
      · split at h
        · exact h.imp fun _ _ => ih
        · exact h.imp fun _ _ => ih
        · exact h.imp fun _ _ => ih
        · trivial

theorem wpScan_and {act : (k : K) → V k → RowAct (V k)}
    {post post' : List (KeyedRow V) → World ι V ε α → Session V γ → Prop}
    {todo : List K} : ∀ {acc w s}, wpScan R act post todo acc w s →
      wpScan R act post' todo acc w s →
      wpScan R act (fun acc w s => post acc w s ∧ post' acc w s) todo acc w s := by
  induction todo with
  | nil =>
      intro acc w s h h'
      exact fun w' hw => ⟨h w' hw, h' w' hw⟩
  | cons k ks ih =>
      intro acc w s h h'
      simp only [wpScan] at h h' ⊢
      split at h
      · next hv =>
          rw [hv] at h'
          exact fun w' hw => ih (h w' hw) (h' w' hw)
      · next v hv =>
          rw [hv] at h'
          dsimp only at h'
          split at h
          · next ha =>
              rw [ha] at h'
              exact fun w' hw => ih (h w' hw) (h' w' hw)
          · next v' ha =>
              rw [ha] at h'
              exact fun w' hw => ih (h w' hw) (h' w' hw)
          · next ha =>
              rw [ha] at h'
              exact fun w' hw => ih (h w' hw) (h' w' hw)
          · trivial

/-- The loop rule of a locking statement: `I todo` holds before each look and
survives the others, each outcome of a look takes it to the rest of the
candidates, and at the end it is what the statement leaves. -/
theorem wpScan_of_inv {act : (k : K) → V k → RowAct (V k)}
    {I : List K → World ι V ε α → Session V γ → Prop}
    (hstable : ∀ todo w s, I todo w s → Stable R (I todo) w s)
    (hgone : ∀ k ks w s, I (k :: ks) w s → (s.view w.db).get k = none → I ks w s)
    (hskip : ∀ k ks w s v, I (k :: ks) w s → (s.view w.db).get k = some v →
      act k v = .skip → I ks w s)
    (hput : ∀ k ks w s v v', I (k :: ks) w s → (s.view w.db).get k = some v →
      act k v = .put v' → I ks w (s.put k (some v')))
    (hdelete : ∀ k ks w s v, I (k :: ks) w s → (s.view w.db).get k = some v →
      act k v = .delete → I ks w (s.put k none)) {todo : List K} :
    ∀ {acc w s}, I todo w s → wpScan R act (fun _ => I []) todo acc w s := by
  induction todo with
  | nil =>
      intro acc w s h
      exact hstable [] w s h
  | cons k ks ih =>
      intro acc w s h
      simp only [wpScan]
      split
      · next hv => exact (hstable _ _ _ (hgone k ks w s h hv)).imp fun _ _ => ih
      · next v hv =>
          split
          · next ha => exact (hstable _ _ _ (hskip k ks w s v h hv ha)).imp fun _ _ => ih
          · next v' ha =>
              exact (hstable _ _ _ (hput k ks w s v v' h hv ha)).imp fun _ _ => ih
          · next ha =>
              exact (hstable _ _ _ (hdelete k ks w s v h hv ha)).imp fun _ _ => ih
          · trivial

/-- What the others cannot undo holds at the end of a pass. -/
theorem wpScan_of_stays {P : World ι V ε α → Prop}
    (hstays : ∀ s w w', R s w w' → P w → P w') {act : (k : K) → V k → RowAct (V k)}
    {post : List (KeyedRow V) → World ι V ε α → Session V γ → Prop}
    (hpost : ∀ acc w s, P w → post acc w s) {todo : List K} :
    ∀ {acc w s}, P w → wpScan R act post todo acc w s := by
  induction todo with
  | nil =>
      intro acc w s h w' hw
      exact hpost acc w' s (hstays s w w' hw h)
  | cons k ks ih =>
      intro acc w s h
      simp only [wpScan]
      split
      · exact fun w' hw => ih (hstays _ w w' hw h)
      · split
        · exact fun w' hw => ih (hstays _ w w' hw h)
        · exact fun w' hw => ih (hstays _ w w' hw h)
        · exact fun w' hw => ih (hstays _ w w' hw h)
        · trivial

namespace Prog

theorem wp_mono {Q' : β → World ι V ε α → Session V γ → Prop}
    {E' : ε → World ι V ε α → Session V γ → Prop}
    (hq : ∀ b w s, Q b w s → Q' b w s) (he : ∀ e w s, E e w s → E' e w s)
    {p : Prog V γ ε β} : ∀ {w s}, p.wp R Q E w s → p.wp R Q' E' w s := by
  induction p with
  | ret b => intro w s h; exact hq b w s h
  | raise e => intro w s h; exact he e w s h
  | select next ih => intro w s h; exact h.imp fun _ _ => ih _
  | update tag cand act next ih =>
      intro w s h l hl
      exact (h l hl).imp fun _ _ => wpScan_mono fun acc _ _ => ih _ acc
  | scan todo act acc next ih =>
      intro w s h
      exact wpScan_mono (fun acc _ _ => ih acc) h
  | insert rows check next ih =>
      intro w s h h1 h2 h3
      exact (h h1 h2 h3).imp fun _ _ => ih
  | insertIgnore k v next ih =>
      intro w s h
      exact ⟨fun h1 => (h.1 h1).imp fun _ _ => ih,
        fun h1 => (h.2 h1).imp fun _ _ => ih⟩

/-- Two postconditions of one body hold together. -/
theorem wp_and {Q' : β → World ι V ε α → Session V γ → Prop}
    {E' : ε → World ι V ε α → Session V γ → Prop} {p : Prog V γ ε β} :
    ∀ {w s}, p.wp R Q E w s → p.wp R Q' E' w s →
      p.wp R (fun b w s => Q b w s ∧ Q' b w s) (fun e w s => E e w s ∧ E' e w s) w s := by
  induction p with
  | ret b => intro w s h h'; exact ⟨h, h'⟩
  | raise e => intro w s h h'; exact ⟨h, h'⟩
  | select next ih => intro w s h h' w' hw; exact ih _ (h w' hw) (h' w' hw)
  | update tag cand act next ih =>
      intro w s h h' l hl w' hw
      exact wpScan_mono (fun acc _ _ hacc => ih _ acc hacc.1 hacc.2)
        (wpScan_and (h l hl w' hw) (h' l hl w' hw))
  | scan todo act acc next ih =>
      intro w s h h'
      exact wpScan_mono (fun acc _ _ hacc => ih acc hacc.1 hacc.2) (wpScan_and h h')
  | insert rows check next ih =>
      intro w s h h' h1 h2 h3 w' hw
      exact ih (h h1 h2 h3 w' hw) (h' h1 h2 h3 w' hw)
  | insertIgnore k v next ih =>
      intro w s h h'
      exact ⟨fun h1 w' hw => ih (h.1 h1 w' hw) (h'.1 h1 w' hw),
        fun h1 w' hw => ih (h.2 h1 w' hw) (h'.2 h1 w' hw)⟩

/-- What the others cannot undo holds at the end of any body. -/
theorem wp_of_stays {P : World ι V ε α → Prop}
    (hstays : ∀ s w w', R s w w' → P w → P w') (p : Prog V γ ε β) :
    ∀ {w s}, P w → p.wp R (fun _ w _ => P w) (fun _ _ _ => True) w s := by
  induction p with
  | ret b => exact fun h => h
  | raise e => exact fun _ => trivial
  | select next ih => exact fun h w' hw => ih _ (hstays _ _ w' hw h)
  | update tag cand act next ih =>
      intro w s h l _ w' hw
      exact wpScan_of_stays hstays (fun acc _ _ => ih _ acc) (hstays _ w w' hw h)
  | scan todo act acc next ih =>
      intro w s h
      exact wpScan_of_stays hstays (fun acc _ _ => ih acc) h
  | insert rows check next ih => exact fun h _ _ _ w' hw => ih (hstays _ _ w' hw h)
  | insertIgnore k v next ih =>
      exact fun h => ⟨fun _ w' hw => ih (hstays _ _ w' hw h),
        fun _ w' hw => ih (hstays _ _ w' hw h)⟩

/-- A body in sequence: what follows is the postcondition of what comes
first. -/
theorem wp_bind {δ : Type} {p : Prog V γ ε δ} {f : δ → Prog V γ ε β} :
    ∀ {w s}, (p.bind f).wp R Q E w s ↔ p.wp R (fun b => (f b).wp R Q E) E w s := by
  have key : ∀ (act : (k : K) → V k → RowAct (V k))
      (post post' : List (KeyedRow V) → World ι V ε α → Session V γ → Prop)
      (_ : ∀ acc w s, post acc w s ↔ post' acc w s) (todo acc w s),
      wpScan R act post todo acc w s ↔ wpScan R act post' todo acc w s :=
    fun act post post' hp todo acc w s =>
      ⟨wpScan_mono fun _ _ _ => (hp _ _ _).1,
        wpScan_mono fun _ _ _ => (hp _ _ _).2⟩
  induction p with
  | ret b => intro w s; rfl
  | raise e => intro w s; rfl
  | select next ih =>
      intro w s
      exact forall_congr' fun w' => imp_congr_right fun _ => ih _
  | update tag cand act next ih =>
      intro w s
      refine forall_congr' fun l => imp_congr_right fun _ => ?_
      refine forall_congr' fun w' => imp_congr_right fun _ => ?_
      exact key _ _ _ (fun acc _ _ => ih _ acc) _ _ _ _
  | scan todo act acc next ih =>
      intro w s
      exact key _ _ _ (fun acc _ _ => ih acc) _ _ _ _
  | insert rows check next ih =>
      intro w s
      refine imp_congr_right fun _ => imp_congr_right fun _ =>
        imp_congr_right fun _ => ?_
      exact forall_congr' fun w' => imp_congr_right fun _ => ih
  | insertIgnore k v next ih =>
      intro w s
      exact and_congr
        (imp_congr_right fun _ => forall_congr' fun w' => imp_congr_right fun _ => ih)
        (imp_congr_right fun _ => forall_congr' fun w' => imp_congr_right fun _ => ih)

end Prog

/-- The step lemma: a statement takes a session from its `wp` to the `wp` of
what is left, still stable under the others. -/
theorem TxStep.wp {w : World ι V ε α} {free : K → Prop}
    {t t' : Prog V γ ε β × Session V γ} (h : TxStep w.db free t t')
    (hw : t.1.wp R Q E w t.2) : Stable R (t'.1.wp R Q E) w t'.2 := by
  cases h with
  | select => exact hw
  | update hl => exact hw _ hl
  | done => exact hw
  | gone hf hv => simpa only [Prog.wp, wpScan, hv] using hw
  | skip hf hv ha => simpa only [Prog.wp, wpScan, hv, ha] using hw
  | put hf hv ha => simpa only [Prog.wp, wpScan, hv, ha] using hw
  | delete hf hv ha => simpa only [Prog.wp, wpScan, hv, ha] using hw
  | insert hf hn hc => exact hw (fun r hr => (hf r hr).2) hn hc
  | insertNew hf hv => exact hw.1 hv
  | insertOld hf hv => exact hw.2 hv

/-- What a pass establishes it establishes with nobody else about. -/
theorem scanAll_of_wpScan (hrefl : ∀ s w, R s w w)
    {act : (k : K) → V k → RowAct (V k)}
    {post : List (KeyedRow V) → World ι V ε α → Session V γ → Prop} {todo : List K} :
    ∀ {acc rows : List (KeyedRow V)} {w s s'}, wpScan R act post todo acc w s →
      Prog.scanAll w.db act todo acc s = some (rows, s') → post rows w s' := by
  induction todo with
  | nil =>
      intro acc rows w s s' h hscan
      obtain ⟨rfl, rfl⟩ := Prod.mk.inj (Option.some.inj hscan)
      exact h w (hrefl s w)
  | cons k ks ih =>
      intro acc rows w s s' h hscan
      simp only [wpScan] at h
      simp only [Prog.scanAll] at hscan
      split at h
      · next hv =>
          rw [hv] at hscan
          exact ih (h w (hrefl _ w)) hscan
      · next v hv =>
          rw [hv] at hscan
          dsimp only at hscan
          split at h
          · next ha =>
              rw [ha] at hscan
              exact ih (h w (hrefl _ w)) hscan
          · next v' ha =>
              rw [ha] at hscan
              exact ih (h w (hrefl _ w)) hscan
          · next ha =>
              rw [ha] at hscan
              exact ih (h w (hrefl _ w)) hscan
          · next ha =>
              rw [ha] at hscan
              simp at hscan

/-- Nor does a body do anything else when it runs alone. -/
theorem Prog.exec_of_wp (hrefl : ∀ s w, R s w w) {p : Prog V γ ε β} :
    ∀ {w s s' b}, p.wp R Q E w s → p.exec w.db none s = (.committed b, s') →
      Q b w s' := by
  induction p with
  | ret b =>
      intro w s s' b' h hexec
      simp only [exec, Prod.mk.injEq, Finish.committed.injEq] at hexec
      obtain ⟨rfl, rfl⟩ := hexec
      exact h
  | raise e =>
      intro w s s' b h hexec
      simp [exec] at hexec
  | select next ih =>
      intro w s s' b h hexec
      exact ih _ (h w (hrefl s w)) hexec
  | update tag cand act next ih =>
      intro w s s' b h hexec
      simp only [exec] at hexec
      split at hexec
      · simp at hexec
      · next rows s₁ hscan =>
          refine ih _ _ ?_ hexec
          exact scanAll_of_wpScan hrefl (h _ (.refl _) w (hrefl _ w)) hscan
  | scan todo act acc next ih =>
      intro w s s' b h hexec
      simp only [exec] at hexec
      split at hexec
      · simp at hexec
      · next rows s₁ hscan => exact ih _ (scanAll_of_wpScan hrefl h hscan) hexec
  | insert rows check next ih =>
      intro w s s' b h hexec
      simp only [exec] at hexec
      split at hexec
      · next hc =>
          simp only [canInsert, Bool.and_eq_true, List.all_eq_true,
            Option.isNone_iff_eq_none, decide_eq_true_eq] at hc
          exact ih (h hc.1.1 hc.1.2 hc.2 w (hrefl _ w)) hexec
      · simp at hexec
  | insertIgnore k v next ih =>
      intro w s s' b h hexec
      simp only [exec] at hexec
      split at hexec
      · next hv =>
          exact ih (h.1 (Option.isNone_iff_eq_none.mp hv) w (hrefl _ w)) hexec
      · next hv =>
          exact ih (h.2 (by simpa using hv) w (hrefl _ w)) hexec

end Wp

variable [DecidableEq ι]

/-- What lock keeping guarantees of every reachable state. -/
structure State.Locked (st : State ι V γ ε α) : Prop where
  held : ∀ i t, st.live i = some t → t.2.Held
  apart : ∀ i j, i ≠ j → ∀ t t', st.live i = some t → st.live j = some t' →
    ∀ k ∈ t.2.locks, k ∉ t'.2.locks

omit [DecidableEq K] in
theorem State.Locked.update {st : State ι V γ ε α} (h : st.Locked) {i : ι}
    {t : Option (Prog V γ ε α × Session V γ)} {w : World ι V ε α}
    (ht : ∀ t', t = some t' → t'.2.Held ∧ ∀ k ∈ t'.2.locks, st.free i k) :
    State.Locked ⟨w, Function.update st.live i t⟩ where
  held j u hu := by
    dsimp only at hu
    by_cases hj : j = i
    · subst hj
      rw [Function.update_self] at hu
      exact (ht u hu).1
    · rw [Function.update_of_ne hj] at hu
      exact h.held j u hu
  apart j j' hne u u' hu hu' k hk := by
    dsimp only at hu hu'
    by_cases hj : j = i
    · subst hj
      rw [Function.update_self] at hu
      rw [Function.update_of_ne (Ne.symm hne)] at hu'
      exact (ht u hu).2 k hk j' (Ne.symm hne) u' hu'
    · rw [Function.update_of_ne hj] at hu
      by_cases hj' : j' = i
      · subst hj'
        rw [Function.update_self] at hu'
        exact fun hk' => (ht u' hu').2 k hk' j hj u hu hk
      · rw [Function.update_of_ne hj'] at hu'
        exact h.apart j j' hne u u' hu hu' k hk

theorem Step.locked {S : System ι V γ ε α} {C : State ι V γ ε α → ι → Prop}
    {st st' : State ι V γ ε α} (h : Step S C st st') (hl : st.Locked) :
    st'.Locked := by
  cases h with
  | @start i hi hg hd =>
      refine hl.update fun t' ht' => ?_
      obtain rfl : _ = t' := Option.some.inj ht'
      exact ⟨Session.held_init _, fun k hk => (hd k hk).2⟩
  | @run i t t' hi ht =>
      refine hl.update fun u hu => ?_
      obtain rfl : _ = u := Option.some.inj hu
      obtain ⟨hheld, hnew⟩ := ht.locks (hl.held i t hi)
      refine ⟨hheld, fun k hk => ?_⟩
      rcases hnew k hk with hk | hk
      · exact fun j hj u hu => hl.apart i j (Ne.symm hj) t u hi hu k hk
      · exact hk
  | commit hi hc => exact hl.update fun t' ht' => by simp at ht'
  | rollback hi => exact hl.update fun t' ht' => by simp at ht'
  | abort hi => exact hl.update fun t' ht' => by simp at ht'

/-- The side conditions of the rule. `Inv` is about the world, `R` what a
session relies on, `Q` and `E` what call `i` ends in. -/
structure Discipline (S : System ι V γ ε α) (C : State ι V γ ε α → ι → Prop)
    (R : Session V γ → World ι V ε α → World ι V ε α → Prop)
    (Inv : World ι V ε α → Prop)
    (Q : ι → α → World ι V ε α → Session V γ → Prop)
    (E : ι → ε → World ι V ε α → Session V γ → Prop) : Prop where
  refl : ∀ s w, Inv w → R s w w
  trans : ∀ s w w' w'', R s w w' → R s w' w'' → R s w w''
  start : ∀ i w, Inv w → (∀ k ∈ S.draws i, S.fresh w.db k = true) →
    Stable R ((S.body i).wp R (Q i) (E i)) w (Session.init (S.draws i))
  commit : ∀ (st : State ι V γ ε α) i a σ, st.Locked → Inv st.toWorld →
    st.live i = some (.ret a, σ) → C st i → Q i a st.toWorld σ →
    Inv (st.toWorld.commit i a σ) ∧
      ∀ j p τ, j ≠ i → st.live j = some (p, τ) →
        R τ st.toWorld (st.toWorld.commit i a σ)
  rollback : ∀ (st : State ι V γ ε α) i e σ, Inv st.toWorld →
    st.live i = some (.raise e, σ) → E i e st.toWorld σ →
    Inv (st.toWorld.note i (.raised e)) ∧
      ∀ τ, R τ st.toWorld (st.toWorld.note i (.raised e))
  abort : ∀ w i, Inv w →
    Inv (w.note i .aborted) ∧ ∀ τ, R τ w (w.note i .aborted)

/-- What the rule maintains. -/
structure State.Sound (R : Session V γ → World ι V ε α → World ι V ε α → Prop)
    (Inv : World ι V ε α → Prop)
    (Q : ι → α → World ι V ε α → Session V γ → Prop)
    (E : ι → ε → World ι V ε α → Session V γ → Prop)
    (st : State ι V γ ε α) : Prop where
  locked : st.Locked
  inv : Inv st.toWorld
  live : ∀ i t, st.live i = some t →
    Stable R (t.1.wp R (Q i) (E i)) st.toWorld t.2

section Rule

variable {S : System ι V γ ε α} {C : State ι V γ ε α → ι → Prop}
  {R : Session V γ → World ι V ε α → World ι V ε α → Prop}
  {Inv : World ι V ε α → Prop}
  {Q : ι → α → World ι V ε α → Session V γ → Prop}
  {E : ι → ε → World ι V ε α → Session V γ → Prop}

theorem Discipline.step (D : Discipline S C R Inv Q E)
    {st st' : State ι V γ ε α} (h : Step S C st st')
    (hs : st.Sound R Inv Q E) : st'.Sound R Inv Q E := by
  have hlock := h.locked hs.locked
  -- The other sessions are carried along by what they rely on.
  have carry : ∀ (w : World ι V ε α) (i j : ι) t u, j ≠ i →
      Function.update st.live i u j = some t →
      (∀ p τ, st.live j = some (p, τ) → R τ st.toWorld w) →
      Stable R (t.1.wp R (Q j) (E j)) w t.2 := by
    intro w i j t u hj ht hR
    rw [Function.update_of_ne hj] at ht
    intro w' hw'
    exact hs.live j t ht w' (D.trans _ _ _ _ (hR t.1 t.2 ht) hw')
  cases h with
  | @start i hi hg hd =>
      refine ⟨hlock, hs.inv, fun j t ht => ?_⟩
      by_cases hj : j = i
      · subst hj
        simp only [Function.update_self, Option.some.injEq] at ht
        subst ht
        exact D.start j _ hs.inv fun k hk => (hd k hk).1
      · exact carry _ i j t _ hj ht fun _ τ _ => D.refl τ _ hs.inv
  | @run i t t' hi ht =>
      refine ⟨hlock, hs.inv, fun j u hu => ?_⟩
      by_cases hj : j = i
      · subst hj
        simp only [Function.update_self, Option.some.injEq] at hu
        subst hu
        exact ht.wp (hs.live j t hi _ (D.refl _ _ hs.inv))
      · exact carry _ i j u _ hj hu fun _ τ _ => D.refl τ _ hs.inv
  | @commit i a σ hi hc =>
      have hq := hs.live i _ hi _ (D.refl _ _ hs.inv)
      obtain ⟨hinv, hR⟩ := D.commit st i a σ hs.locked hs.inv hi hc hq
      refine ⟨hlock, hinv, fun j t ht => ?_⟩
      by_cases hj : j = i
      · subst hj; simp at ht
      · exact carry _ i j t _ hj ht fun p τ hτ => hR j p τ hj hτ
  | @rollback i e σ hi =>
      have he := hs.live i _ hi _ (D.refl _ _ hs.inv)
      obtain ⟨hinv, hR⟩ := D.rollback st i e σ hs.inv hi he
      refine ⟨hlock, hinv, fun j t ht => ?_⟩
      by_cases hj : j = i
      · subst hj; simp at ht
      · exact carry _ i j t _ hj ht fun _ τ _ => hR τ
  | @abort i t hi =>
      obtain ⟨hinv, hR⟩ := D.abort st.toWorld i hs.inv
      refine ⟨hlock, hinv, fun j u hu => ?_⟩
      by_cases hj : j = i
      · subst hj; simp at hu
      · exact carry _ i j u _ hj hu fun _ τ _ => hR τ

/-- The rule, from any sound state on. -/
theorem Discipline.sound_of (D : Discipline S C R Inv Q E)
    {st st' : State ι V γ ε α} (h : ReachUnder S C st st')
    (hs : st.Sound R Inv Q E) : st'.Sound R Inv Q E := by
  induction h with
  | refl => exact hs
  | tail _ hstep ih => exact D.step hstep ih

omit [DecidableEq ι] in
theorem State.Sound.init {d : Db V} (h : Inv ⟨d, []⟩) :
    (State.init d : State ι V γ ε α).Sound R Inv Q E where
  locked := ⟨fun _ _ ht => by simp [State.init] at ht,
    fun _ _ _ _ _ ht => by simp [State.init] at ht⟩
  inv := h
  live _ _ ht := by simp [State.init] at ht

/-- The rule: with the side conditions met, every run from an initial
database that satisfies the invariant keeps it. -/
theorem Discipline.sound (D : Discipline S C R Inv Q E) {d : Db V}
    (h : Inv ⟨d, []⟩) {st : State ι V γ ε α}
    (hr : ReachUnder S C (State.init d) st) : st.Sound R Inv Q E :=
  D.sound_of hr (State.Sound.init h)

/-- A run seen from outside: one step for each call that ends, described by
what its session had established by then. `C'` is what the condition on
commits says of the world. -/
inductive Ends (Inv : World ι V ε α → Prop) (C' : World ι V ε α → ι → Prop)
    (Q : ι → α → World ι V ε α → Session V γ → Prop)
    (E : ι → ε → World ι V ε α → Session V γ → Prop) :
    World ι V ε α → World ι V ε α → Prop
  | commit {w i a σ} (hw : Inv w) (hc : C' w i) (hq : Q i a w σ) :
      Ends Inv C' Q E w (w.commit i a σ)
  | rollback {w i e σ} (hw : Inv w) (he : E i e w σ) :
      Ends Inv C' Q E w (w.note i (.raised e))
  | abort {w i} (hw : Inv w) : Ends Inv C' Q E w (w.note i .aborted)

/-- From any sound state on, a run is, for whoever sees only committed rows
and finished calls, a run of such steps. -/
theorem Discipline.ends_of (D : Discipline S C R Inv Q E)
    (C' : World ι V ε α → ι → Prop) (hC : ∀ st i, C st i → C' st.toWorld i)
    {st st' : State ι V γ ε α} (h : st.Sound R Inv Q E)
    (hr : ReachUnder S C st st') :
    Relation.ReflTransGen (Ends Inv C' Q E) st.toWorld st'.toWorld := by
  induction hr with
  | refl => exact .refl
  | tail hr hstep ih =>
      have hs := D.sound_of hr h
      cases hstep with
      | start hi hg hd => exact ih
      | run hi ht => exact ih
      | @commit i a σ hi hc =>
          have hq := hs.live i _ hi _ (D.refl _ _ hs.inv)
          exact ih.tail (.commit hs.inv (hC _ i hc) hq)
      | @rollback i e σ hi =>
          have he := hs.live i _ hi _ (D.refl _ _ hs.inv)
          exact ih.tail (.rollback hs.inv he)
      | abort hi => exact ih.tail (.abort hs.inv)

theorem Discipline.ends (D : Discipline S C R Inv Q E)
    (C' : World ι V ε α → ι → Prop) (hC : ∀ st i, C st i → C' st.toWorld i)
    {d : Db V} (h : Inv ⟨d, []⟩) {st : State ι V γ ε α}
    (hr : ReachUnder S C (State.init d) st) :
    Relation.ReflTransGen (Ends Inv C' Q E) ⟨d, []⟩ st.toWorld :=
  D.ends_of C' hC (State.Sound.init h) hr

end Rule

/-! ## Relying on one's locks

The usual `R`: the invariant holds, the rows a session holds are as they
were, and `G` relates the two worlds. The lock half needs no proof from the
client, because a commit writes only what its session holds. -/

def LockRely (Inv : World ι V ε α → Prop)
    (G : Session V γ → World ι V ε α → World ι V ε α → Prop)
    (s : Session V γ) (w w' : World ι V ε α) : Prop :=
  Inv w' ∧ (∀ k ∈ s.locks, w'.db.get k = w.db.get k) ∧ G s w w'

/-- The side conditions that are left when sessions rely on their locks. -/
structure LockDiscipline (S : System ι V γ ε α)
    (C : State ι V γ ε α → ι → Prop) (Inv : World ι V ε α → Prop)
    (G : Session V γ → World ι V ε α → World ι V ε α → Prop)
    (Q : ι → α → World ι V ε α → Session V γ → Prop)
    (E : ι → ε → World ι V ε α → Session V γ → Prop) : Prop where
  refl : ∀ s w, G s w w
  trans : ∀ s w w' w'', G s w w' → G s w' w'' → G s w w''
  start : ∀ i w, Inv w → (∀ k ∈ S.draws i, S.fresh w.db k = true) →
    Stable (LockRely Inv G) ((S.body i).wp (LockRely Inv G) (Q i) (E i)) w
      (Session.init (S.draws i))
  commit : ∀ (st : State ι V γ ε α) i a σ, st.Locked → Inv st.toWorld →
    st.live i = some (.ret a, σ) → C st i → Q i a st.toWorld σ →
    Inv (st.toWorld.commit i a σ) ∧
      ∀ j p τ, j ≠ i → st.live j = some (p, τ) →
        G τ st.toWorld (st.toWorld.commit i a σ)
  rollback : ∀ w i e s, Inv w → E i e w s →
    Inv (w.note i (.raised e)) ∧ ∀ τ, G τ w (w.note i (.raised e))
  abort : ∀ w i, Inv w →
    Inv (w.note i .aborted) ∧ ∀ τ, G τ w (w.note i .aborted)

omit [DecidableEq ι] in
theorem LockDiscipline.discipline {S : System ι V γ ε α}
    {C : State ι V γ ε α → ι → Prop} {Inv : World ι V ε α → Prop}
    {G : Session V γ → World ι V ε α → World ι V ε α → Prop}
    {Q : ι → α → World ι V ε α → Session V γ → Prop}
    {E : ι → ε → World ι V ε α → Session V γ → Prop}
    (D : LockDiscipline S C Inv G Q E) :
    Discipline S C (LockRely Inv G) Inv Q E where
  refl s w h := ⟨h, fun _ _ => rfl, D.refl s w⟩
  trans s w w' w'' h h' :=
    ⟨h'.1, fun k hk => (h'.2.1 k hk).trans (h.2.1 k hk),
      D.trans s w w' w'' h.2.2 h'.2.2⟩
  start := D.start
  commit st i a σ hlock hinv hi hc hq := by
    obtain ⟨hinv', hG⟩ := D.commit st i a σ hlock hinv hi hc hq
    refine ⟨hinv', fun j p τ hj hτ => ⟨hinv', fun k hk => ?_, hG j p τ hj hτ⟩⟩
    have hk' : k ∉ σ.locks :=
      hlock.apart j i hj (p, τ) (.ret a, σ) hτ hi k hk
    exact Session.get_view_of_notMem (hlock.held i _ hi) hk' _
  rollback st i e σ hinv _ he := by
    obtain ⟨hinv', hG⟩ := D.rollback st.toWorld i e σ hinv he
    exact ⟨hinv', fun τ => ⟨hinv', fun _ _ => rfl, hG τ⟩⟩
  abort w i hinv := by
    obtain ⟨hinv', hG⟩ := D.abort w i hinv
    exact ⟨hinv', fun τ => ⟨hinv', fun _ _ => rfl, hG τ⟩⟩

/-! ## One row by its key

The candidate list of `WHERE id = $1 AND …` has at most one key, so the pass
over it is one lock and one look. -/

/-- The key, if the snapshot has a row there that `p` accepts. -/
def Db.only (d : Db V) (k : K) (p : V k → Bool) : List K :=
  if (d.get k).any p then [k] else []

omit [DecidableEq K] in
theorem Db.mem_only {d : Db V} {k k' : K} {p : V k → Bool} (h : k' ∈ d.only k p) : k' = k := by
  rw [Db.only] at h
  split at h
  · exact List.mem_singleton.mp h
  · simp at h

section Only

variable {R : Session V γ → World ι V ε α → World ι V ε α → Prop}
  {Q : β → World ι V ε α → Session V γ → Prop}
  {E : ε → World ι V ε α → Session V γ → Prop}

omit [DecidableEq ι] in
/-- A locking statement on one key, by what it finds: no row in the
snapshot, none any more once it has the lock, or a row to act on. -/
theorem Prog.wp_update_only
    (htrans : ∀ s w w' w'', R s w w' → R s w' w'' → R s w w'')
    {tag : γ} {k : K} {p : Db V → V k → Bool} {act : (k : K) → V k → RowAct (V k)}
    {next : Db V → List (KeyedRow V) → Prog V γ ε β}
    {w : World ι V ε α} {s : Session V γ}
    (hmiss : ((s.view w.db).get k).any (p (s.view w.db)) = false →
      Stable R ((next (s.view w.db) []).wp R Q E) w (s.tag tag))
    (hhit : ((s.view w.db).get k).any (p (s.view w.db)) = true → ∀ w', R (s.tag tag) w w' →
      match (s.view w'.db).get k with
      | none => Stable R ((next (s.view w.db) []).wp R Q E) w' (s.tag tag)
      | some v =>
          match act k v with
          | .skip => Stable R ((next (s.view w.db) []).wp R Q E) w' (s.tag tag)
          | .put v' =>
              Stable R ((next (s.view w.db) [⟨k, v'⟩]).wp R Q E) w'
                ((s.tag tag).put k (some v'))
          | .delete =>
              Stable R ((next (s.view w.db) []).wp R Q E) w'
                ((s.tag tag).put k none)
          | .fail => True) :
    (Prog.update tag (fun d => d.only k (p d)) act next).wp R Q E w s := by
  have flat : ∀ {P : World ι V ε α → Session V γ → Prop} {w s},
      Stable R P w s → Stable R (Stable R P) w s :=
    fun h w' hw w'' hw' => h w'' (htrans _ _ _ _ hw hw')
  intro l hl
  replace hl : l.Perm ((s.view w.db).only k (p (s.view w.db))) := hl
  by_cases hany : ((s.view w.db).get k).any (p (s.view w.db)) = true
  · rw [Db.only, if_pos hany, List.perm_singleton] at hl
    subst hl
    intro w' hw'
    have h := hhit hany w' hw'
    simp only [wpScan, Session.view_tag]
    split
    · next hv => rw [hv] at h; exact flat h
    · next v hv =>
        rw [hv] at h
        dsimp only at h
        split
        · next ha => rw [ha] at h; exact flat h
        · next v' ha => rw [ha] at h; exact flat h
        · next ha => rw [ha] at h; exact flat h
        · trivial
  · rw [Db.only, if_neg hany, List.perm_nil] at hl
    subst hl
    exact flat (hmiss (by simpa using hany))

omit [DecidableEq ι] in
/-- The same statement with nobody else about. -/
theorem Prog.exec_update_only {d : Db V} {tag : γ} {k : K}
    {p : Db V → V k → Bool} {act : (k : K) → V k → RowAct (V k)}
    {next : Db V → List (KeyedRow V) → Prog V γ ε β} {s : Session V γ} :
    (Prog.update tag (fun d => d.only k (p d)) act next).exec d none s
      = match (s.view d).get k with
        | none => (next (s.view d) []).exec d none (s.tag tag)
        | some v =>
            if p (s.view d) v then
              match act k v with
              | .skip => (next (s.view d) []).exec d none (s.tag tag)
              | .put v' => (next (s.view d) [⟨k, v'⟩]).exec d none
                  ((s.tag tag).put k (some v'))
              | .delete => (next (s.view d) []).exec d none
                  ((s.tag tag).put k none)
              | .fail => (.aborted, s)
            else (next (s.view d) []).exec d none (s.tag tag) := by
  simp only [Prog.exec, Db.only]
  cases hv : (s.view d).get k with
  | none => simp [Prog.scanAll]
  | some v =>
      by_cases hp : p (s.view d) v = true
      · simp only [Option.any_some, hp, if_true, Prog.scanAll, Session.view_tag, hv]
        cases act k v with
        | skip => rfl
        | put v' => rfl
        | delete => rfl
        | fail => rfl
      · simp [hp, Prog.scanAll]

end Only

end InvestApi.Pg
