import InvestApi.Ledger.Books

/-!
# Oversell through order operations

A checkout debits under its guard, so it never takes a balance below zero.
A status change that posts an order again debits without one: whether the
account can still pay is not asked. In a run of checkouts and status changes
of their orders that is the only way to a negative balance, and each such
COMMIT leads to one exactly when the account holds less than the order's
amount.
-/

namespace InvestApi.Ref

open InvestApi.Pg

def NonNegative (d : LedgerDb) : Prop :=
  ∀ a row, d.get (.account a) = some row → 0 ≤ row.balanceCents

variable {ι : Type}

/-- The calls are checkouts and status changes of the orders they create. -/
structure OrderOps (calls : ι → LedgerCall) (d : LedgerDb) : Prop where
  ops : ∀ i, (∃ request draw, calls i = .checkout request draw) ∨
    ∃ orderId status user, calls i = .changeStatus orderId status user ∧
      ∃ j request draw, calls j = .checkout request draw ∧
        pgUuidIn orderId = some draw.orderId
  fresh : ∀ i request draw, calls i = .checkout request draw →
    d.get (.transaction draw.orderId) = none

/-- If `i` is about to post an order again, the account holds its amount. -/
def Covers (calls : ι → LedgerCall) (w : LedgerWorld ι) (i : ι) : Prop :=
  ∀ orderId user u t row, calls i = .changeStatus orderId .posted user →
    pgUuidIn orderId = some u → w.db.get (.transaction u) = some t →
    t.status ≠ .posted → w.db.get (.account t.accountId) = some row →
    t.amountCents ≤ row.balanceCents

/-- The orders the status changes name are buy orders. -/
def BuyOrders (calls : ι → LedgerCall) (d : LedgerDb) : Prop :=
  ∀ i orderId status user u t, calls i = .changeStatus orderId status user →
    pgUuidIn orderId = some u → d.get (.transaction u) = some t →
    t.type = .buy ∧ 0 ≤ t.amountCents

theorem OrderOps.buyOrders {calls : ι → LedgerCall} {d : LedgerDb}
    (h : OrderOps calls d) : BuyOrders calls d := by
  intro i orderId status user u t hi hu ht
  rcases h.ops i with ⟨request, draw, hc⟩ | ⟨_, _, _, hc, j, request, draw, hj, hd⟩
  · rw [hi] at hc
    simp at hc
  · rw [hi] at hc
    injection hc with hid _ _
    rw [← hid, hu, Option.some.injEq] at hd
    have hnone := h.fresh j request draw hj
    rw [← hd, ht] at hnone
    simp at hnone

/-! ## One commit -/

/-- The account row a write puts. -/
def accountRowOf : Write LedgerRow → Option AccountRow
  | ⟨.account _, v⟩ => v
  | _ => none

section Commit

variable {env : Env} {calls : ι → LedgerCall} {d₀ : LedgerDb}
  {w : LedgerWorld ι} {i : ι} {r : LedgerReply} {ws : List (Write LedgerRow)}

/-- Every transaction row an order operation writes is a buy. -/
theorem Wrote.buys (h : Wrote env w.db (calls i) r ws) (hops : OrderOps calls d₀)
    (hbuy : BuyOrders calls w.db) :
    ∀ x ∈ ws, ∀ row, transactionOf x = some row →
      row.type = .buy ∧ 0 ≤ row.amountCents := by
  rcases hops.ops i with ⟨request, draw, hc⟩ | ⟨orderId, status, user, hc, _⟩
  · rw [hc] at h
    cases h with
    | bought h =>
        have hamount := transactionConstraints_amount h.order_ok
        obtain ⟨rate, i, q, _, _, _, rfl⟩ := h.order_eq
        simpa [transactionOf, boughtWrites, Checkout.orderRow] using hamount
  · rw [hc] at h
    cases h with
    | kept hu ht hs =>
        have hb := hbuy i _ _ _ _ _ hc hu ht
        simpa [transactionOf] using hb
    | relabelled hu ht hs hside =>
        have hb := hbuy i _ _ _ _ _ hc hu ht
        simpa [transactionOf] using hb
    | crossed hu ht hside hrow =>
        have hb := hbuy i _ _ _ _ _ hc hu ht
        simpa [transactionOf] using hb

theorem Wrote.buyOrders (h : Wrote env w.db (calls i) r ws)
    (hops : OrderOps calls d₀) (hbuy : BuyOrders calls w.db) :
    BuyOrders calls (w.db.writeAll ws) := by
  intro j orderId status user u t hj hu ht
  rcases Db.get_writeAll_cases ht with hold | hnew
  · exact hbuy j orderId status user u t hj hu hold
  · exact h.buys hops hbuy _ hnew t rfl

/-- Covered, a commit keeps every balance at zero or more. -/
theorem Wrote.nonNegative (h : Wrote env w.db (calls i) r ws)
    (hops : OrderOps calls d₀) (hbuy : BuyOrders calls w.db)
    (hn : NonNegative w.db) (hc : Covers calls w i) :
    NonNegative (w.db.writeAll ws) := by
  have key : ∀ x ∈ ws, ∀ row, accountRowOf x = some row → 0 ≤ row.balanceCents := by
    rcases hops.ops i with ⟨request, draw, hi⟩ | ⟨orderId, status, user, hi, _⟩
    · rw [hi] at h
      cases h with
      | bought h =>
          have henough := h.enough
          simpa [accountRowOf, boughtWrites, debited] using henough
    · rw [hi] at h
      cases h with
      | kept hu ht hs => simp [accountRowOf]
      | relabelled hu ht hs hside => simp [accountRowOf]
      | @crossed _ _ _ u t row hu ht hside hrow =>
          obtain ⟨htype, hamount⟩ := hbuy i _ _ _ _ _ hi hu ht
          have hbal := hn _ _ hrow
          have hgoal : 0 ≤ row.balanceCents + crossing t status := by
            by_cases hs : status = .posted
            · subst hs
              have hcov := hc _ _ _ _ _ hi hu ht (fun hp => hside (by simp [hp])) hrow
              simp only [crossing, htype, SIGN, if_true]
              omega
            · simp only [crossing, htype, SIGN, hs, if_false]
              omega
          simpa [accountRowOf] using hgoal
  intro a row hrow
  rcases Db.get_writeAll_cases hrow with hold | hnew
  · exact hn a row hold
  · exact key _ hnew row rfl

/-- And a commit that leaves every balance at zero or more was covered. -/
theorem Wrote.covers (h : Wrote env w.db (calls i) r ws)
    (hbuy : BuyOrders calls w.db) (hn : NonNegative (w.db.writeAll ws)) :
    Covers calls w i := by
  intro orderId user u t row hi hu ht hp hrow
  rw [hi] at h
  obtain ⟨htype, _⟩ := hbuy i _ _ _ _ _ hi hu ht
  cases h with
  | kept hu' ht' hs =>
      obtain rfl := Option.some.inj (hu.symm.trans hu')
      obtain rfl := Option.some.inj (ht.symm.trans ht')
      exact absurd hs hp
  | relabelled hu' ht' hs hside =>
      obtain rfl := Option.some.inj (hu.symm.trans hu')
      obtain rfl := Option.some.inj (ht.symm.trans ht')
      exact absurd (hside.mpr rfl) hp
  | crossed hu' ht' hside hrow' =>
      obtain rfl := Option.some.inj (hu.symm.trans hu')
      obtain rfl := Option.some.inj (ht.symm.trans ht')
      obtain rfl := Option.some.inj (hrow.symm.trans hrow')
      have hbal := hn t.accountId _ (by simp; rfl)
      simp only [crossing, htype, SIGN, if_true] at hbal
      omega

end Commit

/-! ## Every run -/

section Run

variable [DecidableEq ι] {env : Env} {calls : ι → LedgerCall} {d : LedgerDb}

theorem buyOrders_of_reach (hlink : Linked d) (hops : OrderOps calls d)
    {st : LedgerState ι}
    (hr : Reach (ledgerSystem env calls) (State.init d) st) :
    BuyOrders calls st.db := by
  have hrun := ledger_refines (C := fun _ _ => True) hlink hr
  have key : ∀ w, Relation.ReflTransGen (Atomic env calls fun _ _ => True)
      ⟨d, []⟩ w → BuyOrders calls w.db := by
    intro w hw
    induction hw with
    | refl => exact hops.buyOrders
    | tail _ hstep ih =>
        cases hstep with
        | commit _ _ h => exact h.buyOrders hops ih
        | rollback _ => exact ih
        | abort _ => exact ih
  exact key _ hrun

/-- What a session about to commit has written, in a reachable state. -/
theorem wrote_of_reach (hlink : Linked d) {st : LedgerState ι}
    (hr : Reach (ledgerSystem env calls) (State.init d) st) {i : ι}
    {r : LedgerReply} {σ : LedgerSession} (hi : st.live i = some (.ret r, σ)) :
    Wrote env st.db (calls i) r σ.writes := by
  have hD := (ledgerDiscipline env calls fun _ _ => True).discipline
  have hsound := hD.sound hlink hr
  exact hsound.live i _ hi _ (hD.refl _ _ hsound.inv)

theorem nonNegative_of_step (hlink : Linked d) (hops : OrderOps calls d)
    {st st' : LedgerState ι}
    (hr : Reach (ledgerSystem env calls) (State.init d) st)
    (hn : NonNegative st.db)
    (hstep : Step (ledgerSystem env calls)
      (fun st i => Covers calls st.toWorld i) st st') : NonNegative st'.db := by
  rcases hstep.db_cases with hdb | ⟨i, a, σ, hi, hc, hdb⟩
  · rwa [hdb]
  · rw [hdb]
    exact Wrote.nonNegative (w := st.toWorld) (wrote_of_reach hlink hr hi) hops
      (buyOrders_of_reach hlink hops hr) hn hc

theorem covered_of_nonNegative (hlink : Linked d) (hops : OrderOps calls d)
    {st st' : LedgerState ι}
    (hr : Reach (ledgerSystem env calls) (State.init d) st)
    (hn : NonNegative st'.db)
    (hstep : Step (ledgerSystem env calls) (fun _ _ => True) st st') :
    Step (ledgerSystem env calls) (fun st i => Covers calls st.toWorld i)
      st st' := by
  refine hstep.imp fun i a σ hi _ hdb => ?_
  have hw := wrote_of_reach hlink hr hi
  rw [hdb] at hn
  exact Wrote.covers (w := st.toWorld) hw (buyOrders_of_reach hlink hops hr) hn

/-- No oversell, exactly: the balances of a run stay at zero or more if and
only if every COMMIT that posts an order again finds its amount in the
account. -/
theorem nonNegative_iff_covered (hlink : Linked d) (hops : OrderOps calls d)
    (hn : NonNegative d) {p : List (LedgerState ι)}
    (hp : List.IsChain (Step (ledgerSystem env calls) fun _ _ => True)
      (State.init d :: p)) :
    (∀ st ∈ p, NonNegative st.db) ↔
      List.IsChain (Step (ledgerSystem env calls)
        fun st i => Covers calls st.toWorld i) (State.init d :: p) := by
  refine isChain_iff_forall (fun st st' hr hst hstep => ?_) .refl hn hp
  exact ⟨fun hn' => covered_of_nonNegative hlink hops hr hn' hstep,
    nonNegative_of_step hlink hops hr hst⟩

end Run

/-! A run that oversells: buy, cancel, spend the refund, post the first order
again. -/

def oversellCalls : Fin 4 → LedgerCall
  | 0 => .checkout ⟨Uuid.text 7, Uuid.text 5, 3, 100, none⟩ ⟨30, 40, 0⟩
  | 1 => .changeStatus (Uuid.text 30) .failed sampleUser
  | 2 => .checkout ⟨Uuid.text 7, Uuid.text 5, 3, 100, none⟩ ⟨31, 41, 0⟩
  | 3 => .changeStatus (Uuid.text 30) .posted sampleUser

def oversellSchedule : List (Turn (Fin 4)) :=
  [.start 0] ++ turns 0 5 ++ [.finish 0, .start 1] ++ turns 1 9 ++ [.finish 1,
    .start 2] ++ turns 2 5 ++ [.finish 2, .start 3] ++ turns 3 9 ++ [.finish 3]

theorem linked_sampleDb : Linked sampleDb := by
  simp [Linked, sampleDb]

theorem nonNegative_sampleDb : NonNegative sampleDb := by
  intro a row hrow
  by_cases ha : a = 7
  · subst ha
    simp only [sampleDb, Db.get_set_self, Option.some.injEq] at hrow
    rw [← hrow]
    decide
  · simp [sampleDb, ha] at hrow

theorem orderOps_oversell : OrderOps oversellCalls sampleDb where
  ops
    | 0 => Or.inl ⟨_, _, rfl⟩
    | 1 => Or.inr ⟨_, _, _, rfl, 0, _, _, rfl, pgUuidIn_text _⟩
    | 2 => Or.inl ⟨_, _, rfl⟩
    | 3 => Or.inr ⟨_, _, _, rfl, 0, _, _, rfl, pgUuidIn_text _⟩
  fresh _ _ _ _ := by simp [sampleDb]

/-- The refund is spent before the order is posted again. -/
theorem overdrawn_on_path : (path (ledgerSystem sampleEnv oversellCalls)
    oversellSchedule (State.init sampleDb)).any (fun st =>
      (st.db.get (.account 7)).any fun row => row.balanceCents = -300) = true := by
  decide +kernel

theorem not_nonNegative {d : LedgerDb} (h : ((d.get (.account 7)).any
    fun row => row.balanceCents = -300) = true) : ¬NonNegative d := by
  intro hn
  obtain ⟨row, hrow, hbal⟩ := (Option.any_eq_true _ _).mp h
  have hpos := hn 7 row hrow
  rw [decide_eq_true_eq] at hbal
  omega

theorem checkout_and_changeStatus_oversell :
    NonNegative sampleDb ∧ OrderOps oversellCalls sampleDb ∧
      ¬∀ st, Reach (ledgerSystem sampleEnv oversellCalls)
        (State.init sampleDb) st → NonNegative st.db := by
  refine ⟨nonNegative_sampleDb, orderOps_oversell, fun hall => ?_⟩
  obtain ⟨st, hr, hneg⟩ := exists_reach _ _ overdrawn_on_path
  exact not_nonNegative hneg (hall st hr)

/-- On that run the condition fails, as the equivalence says. -/
theorem nonNegative_iff_covered_sample :
    ¬List.IsChain (Step (ledgerSystem sampleEnv oversellCalls)
      fun st i => Covers oversellCalls st.toWorld i)
      (State.init sampleDb :: path (ledgerSystem sampleEnv oversellCalls)
        oversellSchedule (State.init sampleDb)) := by
  rw [← nonNegative_iff_covered linked_sampleDb orderOps_oversell
    nonNegative_sampleDb (path_isChain _ _ _)]
  intro hall
  obtain ⟨st, hmem, hneg⟩ := List.any_eq_true.mp overdrawn_on_path
  exact not_nonNegative hneg (hall st hmem)

end InvestApi.Ref
