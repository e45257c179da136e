import InvestApi.Pg.Rule

/-!
# Transactions that cannot deadlock

A transaction waits for a row another one holds, and a cycle of waiting
transactions is a deadlock. The classical remedy is to lock along an order:
`Climbs r` says of a body that each row it asks for is one it holds already
or one that `r` puts after every row it holds. The condition is read off the
body alone, and a statement keeps it, so it holds of every transaction in
every reachable state.

The proof then follows the edges of the cycle. A transaction that waits for
`k` while it holds `k'` has `r k' k`, so a cycle of transactions is a cycle
of `r`. Nothing is asked of `r` but that it has none.
-/

namespace InvestApi.Pg

variable {K : Type} {V : K → Type} {γ ε α β ι : Type}

/-- The rows the next statement asks for. -/
def Prog.wanted : Prog V γ ε α → List K
  | .scan (k :: _) _ _ _ => [k]
  | .insert rows _ _ => rows.map (·.1)
  | .insertIgnore k _ _ => [k]
  | _ => []

/-- Call `i` is stopped by a row call `j` holds. -/
def State.WaitsFor (st : State ι V γ ε α) (i j : ι) : Prop :=
  i ≠ j ∧ ∃ t ∈ st.live i, ∃ u ∈ st.live j, ∃ k ∈ t.1.wanted, k ∈ u.2.locks

instance [DecidableEq ι] [DecidableEq K] (st : State ι V γ ε α) (i j : ι) :
    Decidable (st.WaitsFor i j) :=
  inferInstanceAs (Decidable (i ≠ j ∧ ∃ t ∈ st.live i, ∃ u ∈ st.live j,
    ∃ k ∈ t.1.wanted, k ∈ u.2.locks))

/-- Some calls wait for each other in a circle. -/
def State.Deadlocked (st : State ι V γ ε α) : Prop :=
  ∃ i, Relation.TransGen st.WaitsFor i i

section Climbs

variable (r : K → K → Prop)

/-- Asking for `k` with `held` held respects the order. -/
def Above (held : List K) (k : K) : Prop := k ∈ held ∨ ∀ k' ∈ held, r k' k

/-- The pass of a locking statement over `todo`: a row may turn out to be
gone, to be skipped, deleted or put. -/
def climbScan (P : List (KeyedRow V) → List K → Prop) :
    List K → List (KeyedRow V) → List K → Prop
  | [], acc, held => P acc held
  | k :: ks, acc, held =>
      Above r held k ∧ climbScan P ks acc held ∧ climbScan P ks acc (k :: held) ∧
        ∀ v, climbScan P ks (acc ++ [⟨k, v⟩]) (k :: held)

namespace Prog

/-- The body asks for rows in order, starting with `held`, and `Q` is true of
what it returns and of what it holds by then. -/
def Climbs (Q : α → List K → Prop) : Prog V γ ε α → List K → Prop
  | ret a, held => Q a held
  | raise _, _ => True
  | select next, held => ∀ d, (next d).Climbs Q held
  | update _ cand _ next, held =>
      ∀ d l, l.Perm (cand d) →
        climbScan r (fun rows held => (next d rows).Climbs Q held) l [] held
  | scan todo _ acc next, held =>
      climbScan r (fun rows held => (next rows).Climbs Q held) todo acc held
  | insert rows _ next, held =>
      (∀ x ∈ rows, Above r held x.1) ∧
        next.Climbs Q ((rows.map (·.1)).reverse ++ held)
  | insertIgnore k _ next, held =>
      Above r held k ∧ next.Climbs Q held ∧ next.Climbs Q (k :: held)

end Prog

variable {r}

theorem climbScan_mono {P P' : List (KeyedRow V) → List K → Prop}
    (h : ∀ rows held, P rows held → P' rows held) :
    ∀ {todo : List K} {acc : List (KeyedRow V)} {held : List K},
      climbScan r P todo acc held → climbScan r P' todo acc held := by
  intro todo
  induction todo with
  | nil => exact fun hp => h _ _ hp
  | cons k ks ih =>
      intro acc held ⟨habove, hskip, hdel, hput⟩
      exact ⟨habove, ih hskip, ih hdel, fun v => ih (hput v)⟩

/-- A body climbs if its first part does, and the rest from wherever that
part ends. -/
theorem Prog.Climbs.bind {p : Prog V γ ε α} {f : α → Prog V γ ε β}
    {Q : α → List K → Prop} {Q' : β → List K → Prop} {held : List K}
    (h : p.Climbs r Q held) (hf : ∀ a held, Q a held → (f a).Climbs r Q' held) :
    (p.bind f).Climbs r Q' held := by
  induction p generalizing held with
  | ret a => exact hf a held h
  | raise e => trivial
  | select next ih => exact fun d => ih d (h d)
  | update tag cand act next ih =>
      exact fun d l hl => climbScan_mono (fun rows _ hp => ih d rows hp) (h d l hl)
  | scan todo act acc next ih => exact climbScan_mono (fun rows _ hp => ih rows hp) h
  | insert rows check next ih => exact ⟨h.1, ih h.2⟩
  | insertIgnore k v next ih => exact ⟨h.1, ih h.2.1, ih h.2.2⟩

theorem Prog.Climbs.mono {p : Prog V γ ε α} {Q Q' : α → List K → Prop}
    {held : List K} (h : p.Climbs r Q held) (hQ : ∀ a held, Q a held → Q' a held) :
    p.Climbs r Q' held := by
  have hret := h.bind (f := .ret) hQ
  rwa [Prog.bind_ret] at hret

/-- A loop climbs if each round does; `I` says what is held when `l` is still
to do. -/
theorem Prog.climbs_forM {f : β → Prog V γ ε PUnit} {I : List β → List K → Prop}
    (hstep : ∀ b l held, I (b :: l) held →
      (f b).Climbs r (fun _ held => I l held) held) :
    ∀ {l : List β} {held : List K}, I l held →
      (l.forM f).Climbs r (fun _ held => I [] held) held := by
  intro l
  induction l with
  | nil => exact fun h => h
  | cons b l ih => exact fun h => (hstep b l _ h).bind fun _ _ hI => ih hI

/-- A locking statement on one row: it finds no such row, finds it gone or
not to its taking, deletes it, or puts it. -/
theorem Prog.climbs_only [DecidableEq K] {tag : γ} {k : K} {p : Db V → V k → Bool}
    {act : (k : K) → V k → RowAct (V k)}
    {next : Db V → List (KeyedRow V) → Prog V γ ε α} {Q : α → List K → Prop}
    {held : List K} (hk : Above r held k)
    (hmiss : ∀ d, (next d []).Climbs r Q held)
    (hdel : ∀ d, (next d []).Climbs r Q (k :: held))
    (hput : ∀ d v, (next d [⟨k, v⟩]).Climbs r Q (k :: held)) :
    (Prog.update tag (fun d => d.only k (p d)) act next).Climbs r Q held := by
  intro d l hl
  replace hl : l.Perm (d.only k (p d)) := hl
  rw [Db.only] at hl
  split at hl
  · rw [List.perm_singleton] at hl
    subst hl
    exact ⟨hk, hmiss d, hdel d, hput d⟩
  · rw [List.perm_nil] at hl
    subst hl
    exact hmiss d

/-! ## What a statement keeps -/

/-- The row a climbing body asks for is one it holds or one above all it
holds. -/
theorem Prog.Climbs.above {p : Prog V γ ε α} {Q : α → List K → Prop}
    {held : List K} {k : K} (h : p.Climbs r Q held) (hk : k ∈ p.wanted) :
    Above r held k := by
  cases p with
  | ret a => simp [wanted] at hk
  | raise e => simp [wanted] at hk
  | select next => simp [wanted] at hk
  | update tag cand act next => simp [wanted] at hk
  | scan todo act acc next =>
      cases todo with
      | nil => simp [wanted] at hk
      | cons k' ks =>
          obtain rfl := List.mem_singleton.mp hk
          exact h.1
  | insert rows check next =>
      obtain ⟨x, hx, rfl⟩ := List.mem_map.mp hk
      exact h.1 x hx
  | insertIgnore k' v next =>
      obtain rfl := List.mem_singleton.mp hk
      exact h.1

theorem locks_putRows (s : Session V γ) (rows : List (KeyedRow V)) :
    (s.putRows rows).locks = (rows.map (·.1)).reverse ++ s.locks := by
  induction rows generalizing s with
  | nil => rfl
  | cons x rows ih => simp [ih]

variable [DecidableEq K] {d : Db V} {free : K → Prop}

theorem TxStep.climbs {Q : α → List K → Prop} {t t' : Prog V γ ε α × Session V γ}
    (ht : TxStep d free t t') (h : t.1.Climbs r Q t.2.locks) :
    t'.1.Climbs r Q t'.2.locks := by
  cases ht with
  | select => exact h _
  | update hl => exact h _ _ hl
  | done => exact h
  | gone hf hv => exact h.2.1
  | skip hf hv ha => exact h.2.1
  | put hf hv ha => exact h.2.2.2 _
  | delete hf hv ha => exact h.2.2.1
  | insert hf hn hc =>
      rw [locks_putRows]
      exact h.2
  | insertNew hf hv => exact h.2.2
  | insertOld hf hv => exact h.2.1

end Climbs

/-! ## Every run -/

section Run

variable [DecidableEq ι] [DecidableEq K] {S : System ι V γ ε α}
  {C : State ι V γ ε α → ι → Prop} {r : K → K → Prop}

/-- Every call asks for its rows along `r`, and `r` has no cycle. -/
structure LockOrder (S : System ι V γ ε α) (r : K → K → Prop) : Prop where
  acyclic : ∀ k, ¬ Relation.TransGen r k k
  climbs : ∀ i, (S.body i).Climbs r (fun _ _ => True) (S.draws i)

/-- What every reachable state has: the transactions in flight climb. -/
def State.Climbing (r : K → K → Prop) (st : State ι V γ ε α) : Prop :=
  ∀ i t, st.live i = some t → t.1.Climbs r (fun _ _ => True) t.2.locks

theorem Step.climbing (h : LockOrder S r) {st st' : State ι V γ ε α}
    (hstep : Step S C st st') (hc : st.Climbing r) : st'.Climbing r := by
  have ended : ∀ i j t, Function.update st.live i none j = some t →
      t.1.Climbs r (fun _ _ => True) t.2.locks := by
    intro i j t ht
    by_cases hj : j = i
    · subst hj; simp at ht
    · rw [Function.update_of_ne hj] at ht
      exact hc j t ht
  cases hstep with
  | @start i hl hg hd =>
      intro j t ht
      by_cases hj : j = i
      · subst hj
        simp only [Function.update_self, Option.some.injEq] at ht
        subst ht
        exact h.climbs j
      · simp only [Function.update_of_ne hj] at ht
        exact hc j t ht
  | @run i t t' hl ht =>
      intro j u hu
      by_cases hj : j = i
      · subst hj
        simp only [Function.update_self, Option.some.injEq] at hu
        subst hu
        exact ht.climbs (hc j t hl)
      · simp only [Function.update_of_ne hj] at hu
        exact hc j u hu
  | commit hl hC => exact ended _
  | rollback hl => exact ended _
  | abort hl => exact ended _

theorem ReachUnder.locked {d : Db V} {st : State ι V γ ε α}
    (hr : ReachUnder S C (State.init d) st) : st.Locked := by
  induction hr with
  | refl =>
      exact ⟨fun _ _ ht => by simp [State.init] at ht,
        fun _ _ _ _ _ ht => by simp [State.init] at ht⟩
  | tail _ hstep ih => exact hstep.locked ih

theorem LockOrder.climbing (h : LockOrder S r) {d : Db V} {st : State ι V γ ε α}
    (hr : ReachUnder S C (State.init d) st) : st.Climbing r := by
  induction hr with
  | refl => exact fun i t ht => by simp [State.init] at ht
  | tail _ hstep ih => exact hstep.climbing h ih

omit [DecidableEq ι] [DecidableEq K] in
/-- A chain of waiting calls, seen as a chain of rows: from the row the first
one asks for to a row the last one holds. -/
theorem State.Climbing.rows {st : State ι V γ ε α} (hc : st.Climbing r)
    (hlock : st.Locked) {i j : ι} (h : Relation.TransGen st.WaitsFor i j) :
    ∃ t ∈ st.live i, ∃ k ∈ t.1.wanted, k ∉ t.2.locks ∧
      ∃ u ∈ st.live j, ∃ k' ∈ u.2.locks, Relation.ReflTransGen r k k' := by
  induction h with
  | single h =>
      obtain ⟨hij, t, ht, u, hu, k, hk, hku⟩ := h
      have hnot : k ∉ t.2.locks := fun hkt => hlock.apart _ _ hij t u ht hu k hkt hku
      exact ⟨t, ht, k, hk, hnot, u, hu, k, hku, .refl⟩
  | tail _ h ih =>
      obtain ⟨t, ht, k, hk, hnot, u, hu, k', hk', hpath⟩ := ih
      obtain ⟨hij, u', hu', v, hv, k'', hk'', hkv⟩ := h
      obtain rfl : u = u' := Option.some.inj (hu.symm.trans hu')
      have hnot' : k'' ∉ u.2.locks := fun hku => hlock.apart _ _ hij u v hu hv k'' hku hkv
      have hup : r k' k'' := ((hc _ u hu).above hk'').resolve_left hnot' k' hk'
      exact ⟨t, ht, k, hk, hnot, v, hv, k'', hkv, hpath.tail hup⟩

/-- Calls that lock along an order without cycles never deadlock. -/
theorem LockOrder.not_deadlocked (h : LockOrder S r) {d : Db V}
    {st : State ι V γ ε α} (hr : ReachUnder S C (State.init d) st) :
    ¬ st.Deadlocked := by
  rintro ⟨i, hcycle⟩
  have hc := h.climbing hr
  obtain ⟨t, ht, k, hk, hnot, u, hu, k', hk', hpath⟩ :=
    hc.rows (ReachUnder.locked hr) hcycle
  obtain rfl : t = u := Option.some.inj (ht.symm.trans hu)
  have hup : r k' k := ((hc i t ht).above hk).resolve_left hnot k' hk'
  exact h.acyclic k (.tail' hpath hup)

end Run

end InvestApi.Pg
