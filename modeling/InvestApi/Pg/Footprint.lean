import InvestApi.Pg.Rule

/-!
# What a body can touch

`Within S I p`: the body `p` reads and writes at keys of `S` only, deletes
nothing, and every row it puts satisfies `I` if the ones it finds do. Run alone
over two databases that agree on `S`, such a body does the same thing twice,
down to the writes, and every write is one of a row of `I` at a key of `S`.
-/

namespace InvestApi.Pg

variable {K : Type} {V : K → Type} {γ ε α β : Type}

def EqOn (S : K → Prop) (d d' : Db V) : Prop := ∀ k, S k → d.get k = d'.get k

theorem EqOn.view [DecidableEq K] {S : K → Prop} {d d' : Db V} (h : EqOn S d d')
    (s : Session V γ) : EqOn S (s.view d) (s.view d') :=
  fun k hk => Db.get_writeAll_congr (h k hk) s.writes

/-- The rows at keys of `S` satisfy `I`. -/
def AllIn (S : K → Prop) (I : (k : K) → V k → Prop) (d : Db V) : Prop :=
  ∀ k v, S k → d.get k = some v → I k v

/-- Writes of rows of `I` at keys of `S`. -/
def Confined (S : K → Prop) (I : (k : K) → V k → Prop) (ws : List (Write V)) : Prop :=
  ∀ w ∈ ws, S w.1 ∧ ∃ v, w.2 = some v ∧ I w.1 v

theorem Confined.nil (S : K → Prop) (I : (k : K) → V k → Prop) :
    Confined S I ([] : List (Write V)) := by
  intro w hw
  simp at hw

theorem Confined.append {S : K → Prop} {I : (k : K) → V k → Prop} {ws ws' : List (Write V)}
    (h : Confined S I ws) (h' : Confined S I ws') : Confined S I (ws ++ ws') := by
  intro w hw
  rcases List.mem_append.mp hw with hw | hw
  · exact h w hw
  · exact h' w hw

theorem Confined.single {S : K → Prop} {I : (k : K) → V k → Prop} {k : K} {v : V k}
    (hk : S k) (hv : I k v) : Confined S I [(⟨k, some v⟩ : Write V)] := by
  intro w hw
  rw [List.mem_singleton] at hw
  subst hw
  exact ⟨hk, v, rfl, hv⟩

variable [DecidableEq K]

theorem Confined.allIn {S : K → Prop} {I : (k : K) → V k → Prop} {ws : List (Write V)}
    {d : Db V} (h : Confined S I ws) (hd : AllIn S I d) : AllIn S I (d.writeAll ws) := by
  intro k v hk hv
  rcases Db.get_writeAll_cases hv with hv | hv
  · exact hd k v hk hv
  · obtain ⟨_, v', hv', hI⟩ := h _ hv
    injection hv' with hv'
    rw [hv']
    exact hI

namespace Prog

inductive Within (S : K → Prop) (I : (k : K) → V k → Prop) : Prog V γ ε α → Prop
  | ret (a : α) : Within S I (.ret a)
  | raise (e : ε) : Within S I (.raise e)
  | select {next} (hnext : ∀ d d', EqOn S d d' → next d = next d')
      (h : ∀ d, Within S I (next d)) : Within S I (.select next)
  | only {tag k act next} {p : Db V → V k → Bool} (hk : S k) (hp : ∀ d d', EqOn S d d' → p d = p d')
      (hact : ∀ v v', I k v → act k v = .put v' → I k v')
      (hdel : ∀ v, act k v ≠ .delete)
      (hnext : ∀ d d' rows, EqOn S d d' → next d rows = next d' rows)
      (h : ∀ d rows, Within S I (next d rows)) :
      Within S I (.update tag (fun d => d.only k (p d)) act next)
  | insert {rows check next} (hrows : ∀ r ∈ rows, S r.1 ∧ I r.1 r.2)
      (hcheck : ∀ d d', EqOn S d d' → check d = check d') (h : Within S I next) :
      Within S I (.insert rows check next)

variable {S : K → Prop} {I : (k : K) → V k → Prop}

omit [DecidableEq K] in
theorem Within.bind {p : Prog V γ ε α} {f : α → Prog V γ ε β} (h : p.Within S I)
    (hf : ∀ a, (f a).Within S I) : (p.bind f).Within S I := by
  induction h with
  | ret a => exact hf a
  | raise e => exact .raise e
  | select hnext _ ih =>
      exact .select (fun d d' hd => by rw [hnext d d' hd]) ih
  | only hk hp hact hdel hnext _ ih =>
      exact .only hk hp hact hdel (fun d d' rows hd => by rw [hnext d d' rows hd]) ih
  | insert hrows hcheck _ ih => exact .insert hrows hcheck ih

omit [DecidableEq K] in
theorem Within.forM {f : β → Prog V γ ε PUnit} : ∀ {l : List β},
    (∀ b ∈ l, (f b).Within S I) → (l.forM f).Within S I
  | [], _ => .ret _
  | b :: l, h => by
      have hl := @Within.forM f l fun b' hb' => h b' (List.mem_cons_of_mem _ hb')
      exact (h b List.mem_cons_self).bind fun _ => hl

/-- What one run did after the session `s`, and the other as well. -/
structure Twice (S : K → Prop) (I : (k : K) → V k → Prop) (p : Prog V γ ε α) (d d' : Db V)
    (s : Session V γ) : Prop where
  same : p.exec d none s = p.exec d' none s
  confined : ∃ ws, (p.exec d none s).2.writes = s.writes ++ ws ∧ Confined S I ws

/-- Running one body and then another. -/
theorem exec_bind (p : Prog V γ ε α) (f : α → Prog V γ ε β) (d : Db V) (s : Session V γ) :
    (p.bind f).exec d none s = match p.exec d none s with
      | (.committed a, s') => (f a).exec d none s'
      | (.raised e, s') => (.raised e, s')
      | (.aborted, s') => (.aborted, s') := by
  induction p generalizing s with
  | ret a => rfl
  | raise e => rfl
  | select next ih => exact ih _ s
  | update tag cand act next ih =>
      simp only [bind, exec]
      cases scanAll d act (cand (s.view d)) [] (s.tag tag) with
      | none => rfl
      | some r => exact ih _ _ r.2
  | scan todo act acc next ih =>
      simp only [bind, exec]
      cases scanAll d act todo acc s with
      | none => rfl
      | some r => exact ih _ r.2
  | insert rows check next ih =>
      simp only [bind, exec]
      split
      · exact ih _
      · rfl
  | insertIgnore k v next ih =>
      simp only [bind, exec]
      split
      · exact ih _
      · exact ih _

theorem Twice.of_eq {p q : Prog V γ ε α} {d d' : Db V} {s s' : Session V γ}
    {ws : List (Write V)} (h : Twice S I q d d' s')
    (hd : p.exec d none s = q.exec d none s') (hd' : p.exec d' none s = q.exec d' none s')
    (hs : s'.writes = s.writes ++ ws) (hws : Confined S I ws) : Twice S I p d d' s where
  same := by rw [hd, hd', h.same]
  confined := by
    obtain ⟨ws', hws', hc⟩ := h.confined
    refine ⟨ws ++ ws', ?_, hws.append hc⟩
    rw [hd, hws', hs, List.append_assoc]

theorem Twice.stop {p : Prog V γ ε α} {d d' : Db V} {s s' : Session V γ}
    {f : Finish ε α} {ws : List (Write V)} (hd : p.exec d none s = (f, s'))
    (hd' : p.exec d' none s = (f, s')) (hs : s'.writes = s.writes ++ ws)
    (hws : Confined S I ws) : Twice S I p d d' s where
  same := hd.trans hd'.symm
  confined := ⟨ws, by rw [hd, hs], hws⟩

theorem Twice.bind {p : Prog V γ ε α} {f : α → Prog V γ ε β} {d d' : Db V}
    {s : Session V γ} (h : Twice S I p d d' s)
    (hf : ∀ a s', p.exec d none s = (.committed a, s') → Twice S I (f a) d d' s') :
    Twice S I (p.bind f) d d' s := by
  obtain ⟨ws, hws, hc⟩ := h.confined
  have hd := exec_bind p f d s
  have hd' := exec_bind p f d' s
  rw [← h.same] at hd'
  cases hp : p.exec d none s with
  | mk r s' =>
      rw [hp] at hd hd' hws
      cases r with
      | committed a => exact (hf a s' hp).of_eq hd hd' hws hc
      | raised e => exact .stop hd hd' hws hc
      | aborted => exact .stop hd hd' hws hc

/-- The footprint rule. -/
theorem Within.twice {p : Prog V γ ε α} (h : p.Within S I) {d d' : Db V}
    (hd : EqOn S d d') {s : Session V γ} (hI : AllIn S I (s.view d)) :
    Twice S I p d d' s := by
  induction h generalizing s with
  | ret a => exact .stop rfl rfl (by simp) (.nil S I)
  | raise e => exact .stop rfl rfl (by simp) (.nil S I)
  | @select next hnext _ ih =>
      have hview := hnext _ _ (hd.view s)
      refine (ih (s.view d) hI).of_eq rfl ?_ (by simp) (.nil S I)
      show (next (s.view d')).exec d' none s = _
      rw [hview]
  | @only tag k act next p hk hp hact hdel hnext _ ih =>
      have hview := hd.view s
      have hget := hview k hk
      -- What the statement answers and writes, as the row at `k` has it.
      have step : ∀ rows (s' : Session V γ) ws,
          (Prog.update tag (fun d => d.only k (p d)) act next).exec d none s
            = (next (s.view d) rows).exec d none s' →
          (Prog.update tag (fun d => d.only k (p d)) act next).exec d' none s
            = (next (s.view d') rows).exec d' none s' →
          s'.writes = s.writes ++ ws → Confined S I ws →
          Twice S I (Prog.update tag (fun d => d.only k (p d)) act next) d d' s := by
        intro rows s' ws h₁ h₂ hws hc
        have hI' : AllIn S I (s'.view d) := by
          rw [Session.view, hws, Db.writeAll_append]
          exact hc.allIn hI
        refine (ih (s.view d) rows hI').of_eq h₁ ?_ hws hc
        rw [h₂, hnext _ _ rows hview]
      have h₁ : (Prog.update tag (fun d => d.only k (p d)) act next).exec d none s = _ :=
        Prog.exec_update_only
      have h₂ : (Prog.update tag (fun d => d.only k (p d)) act next).exec d' none s = _ :=
        Prog.exec_update_only
      rw [← hget, ← hp _ _ hview] at h₂
      cases hv : (s.view d).get k with
      | none =>
          rw [hv] at h₁ h₂
          exact step [] _ [] h₁ h₂ (by simp) (.nil S I)
      | some v =>
          rw [hv] at h₁ h₂
          dsimp only at h₁ h₂
          split at h₁
          · next hpv =>
              rw [if_pos hpv] at h₂
              cases ha : act k v with
              | skip =>
                  rw [ha] at h₁ h₂
                  exact step [] _ [] h₁ h₂ (by simp) (.nil S I)
              | put v' =>
                  rw [ha] at h₁ h₂
                  exact step _ _ _ h₁ h₂ (by simp)
                    (.single hk (hact v v' (hI k v hk hv) ha))
              | delete => exact absurd ha (hdel v)
              | fail =>
                  rw [ha] at h₁ h₂
                  exact .stop h₁ h₂ (by simp) (.nil S I)
          · next hpv =>
              rw [if_neg hpv] at h₂
              exact step [] _ [] h₁ h₂ (by simp) (.nil S I)
  | @insert rows check next hrows hcheck _ ih =>
      have hview := hd.view s
      have hcan : canInsert (s.view d) rows check = canInsert (s.view d') rows check := by
        have hall : rows.all (fun r => ((s.view d).get r.1).isNone)
            = rows.all fun r => ((s.view d').get r.1).isNone := by
          rw [Bool.eq_iff_iff, List.all_eq_true, List.all_eq_true]
          refine forall₂_congr fun r hr => ?_
          rw [hview _ (hrows r hr).1]
        rw [canInsert, canInsert, hall, hcheck _ _ hview]
      have hwrites : Confined S I
          (rows.map fun r => (⟨r.1, some r.2⟩ : Write V)) := by
        intro w hw
        obtain ⟨r, hr, rfl⟩ := List.mem_map.mp hw
        exact ⟨(hrows r hr).1, r.2, rfl, (hrows r hr).2⟩
      cases hc : canInsert (s.view d) rows check with
      | true =>
          have hI' : AllIn S I ((s.putRows rows).view d) := by
            rw [Session.view_putRows]
            exact hwrites.allIn hI
          refine (ih hI').of_eq ?_ ?_ (Session.writes_putRows s rows) hwrites
          · show (if _ then _ else _) = _
            rw [if_pos hc]
            rfl
          · show (if _ then _ else _) = _
            rw [if_pos (hcan ▸ hc)]
            rfl
      | false =>
          have h₁ : (Prog.insert rows check next).exec d none s = (.aborted, s) := by
            show (if _ then _ else _) = _
            rw [if_neg (by simp [hc])]
          have h₂ : (Prog.insert rows check next).exec d' none s = (.aborted, s) := by
            show (if _ then _ else _) = _
            rw [if_neg (by simp [← hcan, hc])]
          exact .stop h₁ h₂ (List.append_nil _).symm (.nil S I)

/-! ## What a body writes

`Puts J p` asks nothing of what the body reads: every row it puts satisfies `J`,
whatever the statements find. -/

variable {J : (k : K) → V k → Prop}

omit [DecidableEq K] in
def Puts (J : (k : K) → V k → Prop) : Prog V γ ε α → Prop
  | .ret _ => True
  | .raise _ => True
  | .select next => ∀ d, (next d).Puts J
  | .update _ _ act next =>
      (∀ k v v', act k v = .put v' → J k v') ∧ ∀ d rows, (next d rows).Puts J
  | .scan _ act _ next =>
      (∀ k v v', act k v = .put v' → J k v') ∧ ∀ rows, (next rows).Puts J
  | .insert rows _ next => (∀ r ∈ rows, J r.1 r.2) ∧ next.Puts J
  | .insertIgnore k v next => J k v ∧ next.Puts J

omit [DecidableEq K] in
theorem Puts.bind {p : Prog V γ ε α} {f : α → Prog V γ ε β} (h : p.Puts J)
    (hf : ∀ a, (f a).Puts J) : (p.bind f).Puts J := by
  induction p with
  | ret a => exact hf a
  | raise e => trivial
  | select next ih => exact fun d => ih d (h d)
  | update tag cand act next ih => exact ⟨h.1, fun d rows => ih d rows (h.2 d rows)⟩
  | scan todo act acc next ih => exact ⟨h.1, fun rows => ih rows (h.2 rows)⟩
  | insert rows check next ih => exact ⟨h.1, ih h.2⟩
  | insertIgnore k v next ih => exact ⟨h.1, ih h.2⟩

omit [DecidableEq K] in
theorem puts_forM {f : β → Prog V γ ε PUnit} : ∀ {l : List β},
    (∀ b ∈ l, (f b).Puts J) → (l.forM f).Puts J
  | [], _ => trivial
  | b :: l, h => by
      have hl := @puts_forM f l fun b' hb' => h b' (List.mem_cons_of_mem _ hb')
      exact (h b List.mem_cons_self).bind fun _ => hl

/-- The writes of the one session that are not those of the other satisfy `J`. -/
def Added (J : (k : K) → V k → Prop) (s s' : Session V γ) : Prop :=
  ∀ w ∈ s'.writes, w ∈ s.writes ∨ ∀ v, w.2 = some v → J w.1 v

omit [DecidableEq K] in
theorem Added.refl (s : Session V γ) : Added J s s := fun _ hw => Or.inl hw

omit [DecidableEq K] in
theorem Added.trans {s₁ s₂ s₃ : Session V γ} (h : Added J s₁ s₂) (h' : Added J s₂ s₃) :
    Added J s₁ s₃ := by
  intro w hw
  rcases h' w hw with hold | hnew
  · exact h w hold
  · exact Or.inr hnew

omit [DecidableEq K] in
theorem Added.put (s : Session V γ) {k : K} {v : Option (V k)}
    (h : ∀ v', v = some v' → J k v') : Added J s (s.put k v) := by
  intro w hw
  rw [Session.writes_put, List.mem_append, List.mem_singleton] at hw
  rcases hw with hw | rfl
  · exact Or.inl hw
  · exact Or.inr h

theorem added_scanAll {d : Db V} {act : (k : K) → V k → RowAct (V k)}
    (hact : ∀ k v v', act k v = .put v' → J k v') {todo : List K} :
    ∀ {acc rows : List (KeyedRow V)} {s s' : Session V γ},
      scanAll d act todo acc s = some (rows, s') → Added J s s' := by
  induction todo with
  | nil =>
      intro acc rows s s' h
      obtain ⟨-, rfl⟩ := Prod.mk.inj (Option.some.inj h)
      exact .refl s
  | cons k todo ih =>
      intro acc rows s s' h
      rw [scanAll] at h
      split at h
      · exact ih h
      · split at h
        · exact ih h
        · next hput =>
            refine (Added.put s fun v' hv' => ?_).trans (ih h)
            obtain rfl := Option.some.inj hv'
            exact hact k _ _ hput
        · exact (Added.put s fun v' hv' => by simp at hv').trans (ih h)
        · simp at h

/-- A pass starts no statement. -/
theorem scanAll_trace {d : Db V} {act : (k : K) → V k → RowAct (V k)} {todo : List K} :
    ∀ {acc rows : List (KeyedRow V)} {s s' : Session V γ},
      scanAll d act todo acc s = some (rows, s') → s'.trace = s.trace := by
  induction todo with
  | nil =>
      intro acc rows s s' h
      obtain ⟨-, rfl⟩ := Prod.mk.inj (Option.some.inj h)
      rfl
  | cons k todo ih =>
      intro acc rows s s' h
      rw [scanAll] at h
      split at h
      · exact ih h
      · split at h
        · exact ih h
        · rw [ih h, Session.trace_put]
        · rw [ih h, Session.trace_put]
        · simp at h

/-- A pass that fails on no row gets to its end. -/
theorem exists_scanAll {d : Db V} {act : (k : K) → V k → RowAct (V k)}
    (hact : ∀ k v, act k v ≠ .fail) {todo : List K} :
    ∀ (acc : List (KeyedRow V)) (s : Session V γ),
      ∃ r, scanAll d act todo acc s = some r := by
  induction todo with
  | nil => exact fun acc s => ⟨(acc, s), rfl⟩
  | cons k todo ih =>
      intro acc s
      rw [scanAll]
      split
      · exact ih acc s
      · next v hv =>
          split
          · exact ih acc s
          · exact ih _ _
          · exact ih acc _
          · next hfail => exact absurd hfail (hact k v)

/-- Whatever a run of the body adds to its session's writes satisfies `J`. -/
theorem Puts.added {p : Prog V γ ε α} (h : p.Puts J) {d : Db V} {s : Session V γ} :
    Added J s (p.exec d none s).2 := by
  induction p generalizing s with
  | ret a => exact .refl s
  | raise e => exact .refl s
  | select next ih => exact ih _ (h _)
  | update tag cand act next ih =>
      simp only [exec]
      split
      · exact .refl s
      · next rows s' hscan =>
          have hadded : Added J (s.tag tag) s' := added_scanAll h.1 hscan
          exact Added.trans hadded (ih _ _ (h.2 _ _))
  | scan todo act acc next ih =>
      simp only [exec]
      split
      · exact .refl s
      · next rows s' hscan => exact (added_scanAll h.1 hscan).trans (ih _ (h.2 _))
  | insert rows check next ih =>
      simp only [exec]
      split
      · refine Added.trans (fun w hw => ?_) (ih h.2)
        rw [Session.writes_putRows, List.mem_append] at hw
        refine hw.imp_right fun hnew v hv => ?_
        obtain ⟨r, hr, rfl⟩ := List.mem_map.mp hnew
        obtain rfl := Option.some.inj hv
        exact h.1 r hr
      · exact .refl s
  | insertIgnore k v next ih =>
      simp only [exec]
      split
      · refine (Added.put s fun v' hv' => ?_).trans (ih h.2)
        obtain rfl := Option.some.inj hv'
        exact h.1
      · exact ih h.2

/-! ## What a body writes with others about

`Touches A p`: every row the body puts and every row it deletes is in `A`. A
fact about a session that survives the others and such writes holds when the
body ends. -/

variable {A : (k : K) → Option (V k) → Prop}

omit [DecidableEq K] in
/-- What a locking statement may do with the row at `k`. -/
def ActsIn (A : (k : K) → Option (V k) → Prop) (act : (k : K) → V k → RowAct (V k))
    (k : K) : Prop :=
  ∀ v, (∀ v', act k v = .put v' → A k (some v')) ∧ (act k v = .delete → A k none)

omit [DecidableEq K] in
def Touches (A : (k : K) → Option (V k) → Prop) : Prog V γ ε α → Prop
  | .ret _ => True
  | .raise _ => True
  | .select next => ∀ d, (next d).Touches A
  | .update _ cand act next =>
      (∀ d, ∀ k ∈ cand d, ActsIn A act k) ∧ ∀ d rows, (next d rows).Touches A
  | .scan todo act _ next =>
      (∀ k ∈ todo, ActsIn A act k) ∧ ∀ rows, (next rows).Touches A
  | .insert rows _ next => (∀ r ∈ rows, A r.1 (some r.2)) ∧ next.Touches A
  | .insertIgnore k v next => A k (some v) ∧ next.Touches A

omit [DecidableEq K] in
theorem Touches.bind {p : Prog V γ ε α} {f : α → Prog V γ ε β} (h : p.Touches A)
    (hf : ∀ a, (f a).Touches A) : (p.bind f).Touches A := by
  induction p with
  | ret a => exact hf a
  | raise e => trivial
  | select next ih => exact fun d => ih d (h d)
  | update tag cand act next ih => exact ⟨h.1, fun d rows => ih d rows (h.2 d rows)⟩
  | scan todo act acc next ih => exact ⟨h.1, fun rows => ih rows (h.2 rows)⟩
  | insert rows check next ih => exact ⟨h.1, ih h.2⟩
  | insertIgnore k v next ih => exact ⟨h.1, ih h.2⟩

section Survives

variable {ι : Type} {R : Session V γ → World ι V ε α → World ι V ε α → Prop}
  {I : World ι V ε α → Session V γ → Prop}

theorem wpScan_survives {act : (k : K) → V k → RowAct (V k)}
    (hstable : ∀ w s, I w s → Stable R I w s)
    (hput : ∀ w s k v, A k v → I w s → I w (s.put k v))
    {post : List (KeyedRow V) → World ι V ε α → Session V γ → Prop}
    (hpost : ∀ acc w s, I w s → post acc w s) {todo : List K}
    (hact : ∀ k ∈ todo, ActsIn A act k) {acc : List (KeyedRow V)} {w : World ι V ε α}
    {s : Session V γ} (h : I w s) : wpScan R act post todo acc w s := by
  suffices hpass : wpScan R act (fun _ w s => (∀ k ∈ ([] : List K), ActsIn A act k) ∧ I w s)
      todo acc w s from
    wpScan_mono (fun acc w s h => hpost acc w s h.2) hpass
  refine wpScan_of_inv (I := fun todo w s => (∀ k ∈ todo, ActsIn A act k) ∧ I w s)
    ?_ ?_ ?_ ?_ ?_ ⟨hact, h⟩
  · intro todo w s h w' hw'
    exact ⟨h.1, hstable w s h.2 w' hw'⟩
  · intro k ks w s h _
    exact ⟨fun k' hk' => h.1 k' (List.mem_cons_of_mem _ hk'), h.2⟩
  · intro k ks w s v h _ _
    exact ⟨fun k' hk' => h.1 k' (List.mem_cons_of_mem _ hk'), h.2⟩
  · intro k ks w s v v' h _ ha
    exact ⟨fun k' hk' => h.1 k' (List.mem_cons_of_mem _ hk'),
      hput w s k _ ((h.1 k List.mem_cons_self v).1 v' ha) h.2⟩
  · intro k ks w s v h _ ha
    exact ⟨fun k' hk' => h.1 k' (List.mem_cons_of_mem _ hk'),
      hput w s k _ ((h.1 k List.mem_cons_self v).2 ha) h.2⟩

omit [DecidableEq K] in
theorem putRows_survives (hput : ∀ w s k v, A k v → I w s → I w (s.put k v))
    {rows : List (KeyedRow V)} {w : World ι V ε α} {s : Session V γ}
    (hrows : ∀ r ∈ rows, A r.1 (some r.2)) (h : I w s) : I w (s.putRows rows) := by
  induction rows generalizing s with
  | nil => exact h
  | cons r rows ih =>
      rw [Session.putRows_cons]
      exact ih (fun r' hr' => hrows r' (List.mem_cons_of_mem _ hr'))
        (hput _ _ _ _ (hrows r List.mem_cons_self) h)

/-- The rule. -/
theorem Touches.wp {p : Prog V γ ε β} (hp : p.Touches A)
    (hstable : ∀ w s, I w s → Stable R I w s)
    (htag : ∀ w s t, I w s → I w (s.tag t))
    (hput : ∀ w s k v, A k v → I w s → I w (s.put k v)) :
    ∀ {w s}, I w s → p.wp R (fun _ => I) (fun _ _ _ => True) w s := by
  induction p with
  | ret b => exact fun h => h
  | raise e => exact fun _ => trivial
  | select next ih => exact fun h => (hstable _ _ h).imp fun _ _ => ih _ (hp _)
  | update tag cand act next ih =>
      intro w s h l hl
      refine (hstable _ _ (htag _ _ tag h)).imp fun w' _ h' => ?_
      exact wpScan_survives hstable hput (fun acc _ _ => ih _ acc (hp.2 _ acc))
        (fun k hk => hp.1 _ k (hl.mem_iff.mp hk)) h'
  | scan todo act acc next ih =>
      intro w s h
      exact wpScan_survives hstable hput (fun acc _ _ => ih acc (hp.2 acc)) hp.1 h
  | insert rows check next ih =>
      intro w s h _ _ _
      exact (hstable _ _ (putRows_survives hput hp.1 h)).imp fun _ _ => ih hp.2
  | insertIgnore k v next ih =>
      intro w s h
      refine ⟨fun _ => ?_, fun _ => ?_⟩
      · exact (hstable _ _ (hput _ _ _ _ hp.1 h)).imp fun _ _ => ih hp.2
      · exact (hstable _ _ h).imp fun _ _ => ih hp.2

end Survives

/-! ## What stays at a key

`Stays J p`: what `J` says of a key, with a row or without one, every statement of
the body leaves true. An INSERT finds its keys free. -/

omit [DecidableEq K] in
def ActsOn (J : (k : K) → Option (V k) → Prop) (act : (k : K) → V k → RowAct (V k))
    (k : K) : Prop :=
  ∀ v, J k (some v) →
    (∀ v', act k v = .put v' → J k (some v')) ∧ (act k v = .delete → J k none)

omit [DecidableEq K] in
def Stays (J : (k : K) → Option (V k) → Prop) : Prog V γ ε α → Prop
  | .ret _ => True
  | .raise _ => True
  | .select next => ∀ d, (next d).Stays J
  | .update _ cand act next =>
      (∀ d, ∀ k ∈ cand d, ActsOn J act k) ∧ ∀ d rows, (next d rows).Stays J
  | .scan todo act _ next => (∀ k ∈ todo, ActsOn J act k) ∧ ∀ rows, (next rows).Stays J
  | .insert rows check next =>
      (∀ d, check d = true → ∀ r ∈ rows, J r.1 none → J r.1 (some r.2)) ∧ next.Stays J
  | .insertIgnore k v next => (J k none → J k (some v)) ∧ next.Stays J

section Stays

variable {J : (k : K) → Option (V k) → Prop}

omit [DecidableEq K] in
theorem Stays.bind {p : Prog V γ ε α} {f : α → Prog V γ ε β} (h : p.Stays J)
    (hf : ∀ a, (f a).Stays J) : (p.bind f).Stays J := by
  induction p with
  | ret a => exact hf a
  | raise e => trivial
  | select next ih => exact fun d => ih d (h d)
  | update tag cand act next ih => exact ⟨h.1, fun d rows => ih d rows (h.2 d rows)⟩
  | scan todo act acc next ih => exact ⟨h.1, fun rows => ih rows (h.2 rows)⟩
  | insert rows check next ih => exact ⟨h.1, ih h.2⟩
  | insertIgnore k v next ih => exact ⟨h.1, ih h.2⟩

theorem stays_set {d : Db V} (h : ∀ k, J k (d.get k)) {k : K} {v : Option (V k)}
    (hv : J k v) : ∀ k', J k' ((d.set k v).get k') := by
  intro k'
  by_cases e : k' = k
  · subst e
    rwa [Db.get_set_self]
  · rw [Db.get_set_ne _ _ e]
    exact h k'

theorem stays_scanAll {d : Db V} {act : (k : K) → V k → RowAct (V k)} {todo : List K} :
    ∀ {acc rows : List (KeyedRow V)} {s s' : Session V γ}, (∀ k ∈ todo, ActsOn J act k) →
      (∀ k, J k ((s.view d).get k)) → scanAll d act todo acc s = some (rows, s') →
        ∀ k, J k ((s'.view d).get k) := by
  induction todo with
  | nil =>
      intro acc rows s s' _ h hscan
      obtain ⟨-, rfl⟩ := Prod.mk.inj (Option.some.inj hscan)
      exact h
  | cons k todo ih =>
      intro acc rows s s' hact h hscan
      have hrest : ∀ k' ∈ todo, ActsOn J act k' := fun k' hk' =>
        hact k' (List.mem_cons_of_mem _ hk')
      rw [scanAll] at hscan
      split at hscan
      · exact ih hrest h hscan
      · next v hv =>
          obtain ⟨hput, hdelete⟩ := hact k List.mem_cons_self v (hv ▸ h k)
          split at hscan
          · exact ih hrest h hscan
          · next hact' =>
              refine ih hrest ?_ hscan
              rw [Session.view_put]
              exact stays_set h (hput _ hact')
          · next hact' =>
              refine ih hrest ?_ hscan
              rw [Session.view_put]
              exact stays_set h (hdelete hact')
          · simp at hscan

theorem stays_putRows {d : Db V} {rows : List (KeyedRow V)} {s : Session V γ}
    (h : ∀ k, J k ((s.view d).get k)) (hfree : ∀ r ∈ rows, (s.view d).get r.1 = none)
    (hn : (rows.map (·.1)).Nodup) (hrows : ∀ r ∈ rows, J r.1 none → J r.1 (some r.2)) :
    ∀ k, J k (((s.putRows rows).view d).get k) := by
  intro k
  rw [Session.view_putRows]
  have hkeys : (rows.map fun r => (⟨r.1, some r.2⟩ : Write V)).map (·.1) = rows.map (·.1) := by
    rw [List.map_map]
    rfl
  by_cases hk : k ∈ rows.map (·.1)
  · obtain ⟨r, hr, rfl⟩ := List.mem_map.mp hk
    have hmem : (⟨r.1, some r.2⟩ : Write V) ∈ rows.map fun r => ⟨r.1, some r.2⟩ :=
      List.mem_map.mpr ⟨r, hr, rfl⟩
    rw [Db.get_writeAll_of_mem (hkeys ▸ hn) hmem]
    exact hrows r hr (hfree r hr ▸ h r.1)
  · rw [Db.get_writeAll_of_notMem (hkeys ▸ hk)]
    exact h k

theorem Stays.exec {p : Prog V γ ε α} (hp : p.Stays J) {d : Db V} {s : Session V γ}
    (h : ∀ k, J k ((s.view d).get k)) : ∀ k, J k (((p.exec d none s).2.view d).get k) := by
  induction p generalizing s with
  | ret a => exact h
  | raise e => exact h
  | select next ih => exact ih _ (hp _) h
  | update tag cand act next ih =>
      simp only [Prog.exec]
      split
      · exact h
      · next rows s' hscan =>
          have htag : ∀ k, J k (((s.tag tag).view d).get k) := h
          exact ih _ _ (hp.2 _ _) (stays_scanAll (hp.1 _) htag hscan)
  | scan todo act acc next ih =>
      simp only [Prog.exec]
      split
      · exact h
      · next rows s' hscan => exact ih _ (hp.2 _) (stays_scanAll hp.1 h hscan)
  | insert rows check next ih =>
      simp only [Prog.exec]
      split
      · next hc =>
          simp only [canInsert, Bool.and_eq_true, List.all_eq_true, decide_eq_true_eq,
            Option.isNone_iff_eq_none] at hc
          exact ih hp.2 (stays_putRows h hc.1.1 hc.1.2 (hp.1 _ hc.2))
      · exact h
  | insertIgnore k v next ih =>
      simp only [Prog.exec]
      split
      · next hnone =>
          refine ih hp.2 ?_
          rw [Session.view_put]
          exact stays_set h (hp.1 (Option.isNone_iff_eq_none.mp hnone ▸ h k))
      · exact ih hp.2 h

/-- What is true of every key is true of it after a body that runs alone. -/
theorem Stays.alone {p : Prog V γ ε α} (hp : p.Stays J) {d : Db V} (h : ∀ k, J k (d.get k))
    (draws : List K) : ∀ k, J k ((p.alone d draws).2.get k) := by
  have hexec := hp.exec (s := Session.init draws) h
  rw [Prog.alone]
  split
  · next a s' heq =>
      rw [heq] at hexec
      exact hexec
  · exact h
  · exact h

end Stays

/-! ## What the rows keep

`Keeps I p`: a row the body puts satisfies `I` if the one it finds does, and a
row it inserts does if the constraints let it in. -/

omit [DecidableEq K] in
def Keeps (I : (k : K) → V k → Prop) : Prog V γ ε α → Prop
  | .ret _ => True
  | .raise _ => True
  | .select next => ∀ d, (next d).Keeps I
  | .update _ _ act next =>
      (∀ k v v', I k v → act k v = .put v' → I k v') ∧ ∀ d rows, (next d rows).Keeps I
  | .scan _ act _ next =>
      (∀ k v v', I k v → act k v = .put v' → I k v') ∧ ∀ rows, (next rows).Keeps I
  | .insert rows check next =>
      (∀ d, check d = true → ∀ r ∈ rows, I r.1 r.2) ∧ next.Keeps I
  | .insertIgnore k v next => I k v ∧ next.Keeps I

omit [DecidableEq K] in
theorem Keeps.bind {p : Prog V γ ε α} {f : α → Prog V γ ε β} (h : p.Keeps I)
    (hf : ∀ a, (f a).Keeps I) : (p.bind f).Keeps I := by
  induction p with
  | ret a => exact hf a
  | raise e => trivial
  | select next ih => exact fun d => ih d (h d)
  | update tag cand act next ih => exact ⟨h.1, fun d rows => ih d rows (h.2 d rows)⟩
  | scan todo act acc next ih => exact ⟨h.1, fun rows => ih rows (h.2 rows)⟩
  | insert rows check next ih => exact ⟨h.1, ih h.2⟩
  | insertIgnore k v next ih => exact ⟨h.1, ih h.2⟩

/-- Every row of `d` satisfies `I`. -/
def Rows (I : (k : K) → V k → Prop) (d : Db V) : Prop := ∀ k v, d.get k = some v → I k v

omit [DecidableEq K] in
theorem Keeps.stays {p : Prog V γ ε α} (h : p.Keeps I) :
    p.Stays fun k o => ∀ v, o = some v → I k v := by
  -- What a statement makes of a row it finds.
  have hacts : ∀ {act : (k : K) → V k → RowAct (V k)},
      (∀ k v v', I k v → act k v = .put v' → I k v') →
      ∀ k, ActsOn (fun k o => ∀ v, o = some v → I k v) act k := by
    intro act hact k v hv
    refine ⟨fun v' hput w hw => ?_, fun _ w hw => by simp at hw⟩
    exact Option.some.inj hw ▸ hact k v v' (hv v rfl) hput
  induction p with
  | ret a => trivial
  | raise e => trivial
  | select next ih => exact fun d => ih d (h d)
  | update tag cand act next ih =>
      exact ⟨fun _ k _ => hacts h.1 k, fun d rows => ih d rows (h.2 d rows)⟩
  | scan todo act acc next ih =>
      exact ⟨fun k _ => hacts h.1 k, fun rows => ih rows (h.2 rows)⟩
  | insert rows check next ih =>
      exact ⟨fun d hc r hr _ v hv => Option.some.inj hv ▸ h.1 d hc r hr, ih h.2⟩
  | insertIgnore k v next ih => exact ⟨fun _ w hw => Option.some.inj hw ▸ h.1, ih h.2⟩

/-- A body that runs alone over rows of `I` leaves rows of `I`. -/
theorem Keeps.alone {p : Prog V γ ε α} (hp : p.Keeps I) {d : Db V} (h : Rows I d)
    (draws : List K) : Rows I (p.alone d draws).2 :=
  hp.stays.alone h draws

end Prog

end InvestApi.Pg
