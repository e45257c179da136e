import InvestApi.Ledger.Bodies

/-!
# A checkout writes what `Wrote` says, or is refused for a reason

The debit is the only statement that waits. Once it has put the account row
the session holds it, and everything the rest of the body depends on is that
row, the fixed tables and two new keys. `Refused` lists the ways the body
raises instead, each with what it saw and when.
-/

namespace InvestApi.Ref

open InvestApi.Pg

/-- What can stop a checkout that has debited `row`. -/
inductive Stops (env : Env) (request : CheckoutRequest) (row : AccountRow) :
    ApiError → Prop
  | rate (h : rateOf env row.currency = none) :
      Stops env request row (.checkoutRejected .no_fx_rate)
  | instrument {rate e} (h : rateOf env row.currency = some rate)
      (hi : uuidParam request.instrumentId = .raise e) :
      Stops env request row e
  | quantity {rate i e} (h : rateOf env row.currency = some rate)
      (hi : uuidParam request.instrumentId = .ret i)
      (hm : bigintParam (request.quantity * 1000000) = .raise e) :
      Stops env request row e

/-- The account cannot pay: no row, or one with less than the cost. -/
def Poor (d : LedgerDb) (u : Uuid) (cost : Int) : Prop :=
  ∀ row, d.get (.account u) = some row → row.balanceCents < cost

variable {ι : Type}

/-- Why a checkout raised `e`, seen from the moment it rolls back. -/
inductive Refused (R : LedgerSession → LedgerWorld ι → LedgerWorld ι → Prop)
    (env : Env) (request : CheckoutRequest) :
    ApiError → LedgerWorld ι → LedgerSession → Prop
  | quantity {w s} (h : Checkout.quantityOk request = false) :
      Refused R env request (Checkout.badQuantity env request) w s
  | accountId {e w s} (h : Checkout.quantityOk request = true)
      (hu : uuidParam request.accountId = .raise e) :
      Refused R env request e w s
  | cost {u e w s} (h : Checkout.quantityOk request = true)
      (hu : uuidParam request.accountId = .ret u)
      (hc : bigintParam (Checkout.sentCost request) = .raise e) :
      Refused R env request e w s
  | short {u cost w₁ w₂ w s} (h : Checkout.quantityOk request = true)
      (hu : uuidParam request.accountId = .ret u)
      (hc : bigintParam (Checkout.sentCost request) = .ret cost)
      (hpoor : Poor w₁.db u cost) (h₁ : R s w₁ w₂) (hfound : HasAccount w₂.db u)
      (h₂ : R s w₂ w) :
      Refused R env request (.checkoutRejected .insufficient_funds) w s
  | missing {u cost w₂ w s} (h : Checkout.quantityOk request = true)
      (hu : uuidParam request.accountId = .ret u)
      (hc : bigintParam (Checkout.sentCost request) = .ret cost)
      (hgone : ¬HasAccount w₂.db u) (h₂ : R s w₂ w) :
      Refused R env request (.checkoutRejected .account_not_found) w s
  | stopped {u row cost e w s} (h : Debits request u row cost)
      (hrow : w.db.get (.account u) = some row) (hstop : Stops env request row e) :
      Refused R env request e w s

variable {R : LedgerSession → LedgerWorld ι → LedgerWorld ι → Prop}
  {E : ApiError → LedgerWorld ι → LedgerSession → Prop} {env : Env}
  {request : CheckoutRequest} {draw : CheckoutDraw}

/-- The session of a checkout that has put the debited row. -/
abbrev afterDebit (u : Uuid) (row : AccountRow) (cost : Int) : LedgerSession :=
  ((Session.init []).tag .debitAccount).put (.account u) (some (debited row cost))

theorem wp_debitAccount (hR : LedgerRely R)
    {Q : AccountRow → LedgerWorld ι → LedgerSession → Prop} {w : LedgerWorld ι}
    (hqty : Checkout.quantityOk request = true)
    (hq : ∀ w' u row cost, Debits request u row cost →
      w'.db.get (.account u) = some row →
      Stable R (Q (debited row cost)) w' (afterDebit u row cost))
    (hE : ∀ e w s, Refused R env request e w s → E e w s) :
    (Checkout.debitAccount request.accountId (Checkout.sentCost request)).wp R Q E w
      (Session.init []) := by
  simp only [Checkout.debitAccount, Prog.bind_eq, Prog.wp_bind]
  rcases uuidParam_value request.accountId with ⟨u, hu⟩ | ⟨e, he⟩
  swap
  · rw [he]; exact hE _ _ _ (.accountId hqty he)
  rw [hu, Prog.wp, Prog.wp_bind]
  rcases bigintParam_value (Checkout.sentCost request)
    with ⟨cost, hc⟩ | ⟨e, he⟩
  swap
  · rw [he]; exact hE _ _ _ (.cost hqty hu he)
  rw [hc, Prog.wp, Prog.wp_bind]
  -- Nothing debited: the SELECT tells a poor account from a missing one.
  have refuse : ∀ w₁ : LedgerWorld ι, Poor w₁.db u cost →
      Stable R (Prog.wp R Q E (do
        let found ← Prog.query fun d => (d.get (.account u)).isSome
        .raise (.checkoutRejected
          (if found then .insufficient_funds else .account_not_found)))) w₁
        ((Session.init []).tag .debitAccount) := by
    intro w₁ hpoor w₂ hw₂ w₃ hw₃
    cases hfound : (w₂.db.get (.account u)).isSome with
    | true =>
        obtain ⟨row, hrow⟩ := Option.isSome_iff_exists.mp hfound
        have hwhy : Refused R env request _ w₃ _ :=
          .short hqty hu hc hpoor hw₂ ⟨row, hrow⟩ hw₃
        simpa [Prog.bind, Prog.wp, hfound] using hE _ _ _ hwhy
    | false =>
        have hgone : ¬HasAccount w₂.db u := by
          rintro ⟨row, hrow⟩
          rw [hrow] at hfound
          simp at hfound
        have hwhy : Refused R env request _ w₃ _ :=
          .missing hqty hu hc hgone hw₃
        simpa [Prog.bind, Prog.wp, hfound] using hE _ _ _ hwhy
  refine Prog.wp_update_only hR.trans ?_ ?_
  · intro hmiss
    refine refuse w ?_
    intro row hrow
    simpa [hrow] using hmiss
  · intro _ w₁ hw₁
    simp only [Session.view_init]
    cases hrow : w₁.db.get (.account u) with
    | none =>
        refine refuse w₁ fun row hrow' => ?_
        rw [hrow] at hrow'
        simp at hrow'
    | some row =>
        by_cases henough : row.balanceCents ≥ cost
        · by_cases hfit : inBigint (row.balanceCents - cost) = true
          · simp only [Checkout.debitRow, henough, hfit, if_true]
            exact hq w₁ u row cost ⟨hqty, hu, hc, henough, hfit⟩ hrow
          · simp only [Checkout.debitRow, henough, hfit, if_true]
            trivial
        · simp only [Checkout.debitRow, henough, if_false]
          refine refuse w₁ fun row' hrow' => ?_
          rw [hrow, Option.some.injEq] at hrow'
          rw [← hrow']
          omega

theorem wp_resolveFxRate {Q : Numeric → LedgerWorld ι → LedgerSession → Prop}
    {currency : String} {w : LedgerWorld ι} {s : LedgerSession} (hrefl : R s w w)
    (hq : ∀ rate, rateOf env currency = some rate → Stable R (Q rate) w s)
    (hE : rateOf env currency = none →
      Stable R (E (.checkoutRejected .no_fx_rate)) w s) :
    (Checkout.resolveFxRate env currency).wp R Q E w s := by
  unfold Checkout.resolveFxRate
  split
  · next huah => exact hq _ (by rw [rateOf, if_pos huah]) w hrefl
  · next huah =>
      intro w' hw'
      cases hrate : Checkout.latestRate env currency with
      | none => exact hE (by rw [rateOf, if_neg huah, hrate]; rfl) w' hw'
      | some row => exact hq _ (by rw [rateOf, if_neg huah, hrate]; rfl) w' hw'

/-- The order and its job, once the account row is debited and held. -/
theorem wp_insertOrder {Q : Unit → LedgerWorld ι → LedgerSession → Prop} {w : LedgerWorld ι}
    {u : Uuid} {row : AccountRow} {cost : Int} {rate : Numeric}
    (hdebit : Debits request u row cost) (hrow : w.db.get (.account u) = some row)
    (hrate : rateOf env row.currency = some rate)
    (hq : ∀ w' order, w'.db.get (.account u) = some row →
      Orders env request draw u row cost order →
      transactionConstraints env
        (w'.db.set (.account u) (some (debited row cost))) order = true →
      w'.db.get (.transaction draw.orderId) = none →
      Stable R (Q ()) w' ((afterDebit u row cost).put
        (.transaction draw.orderId) (some order)))
    (hE : ∀ e, Stops env request row e → E e w (afterDebit u row cost)) :
    (Checkout.insertOrder env request (Checkout.sentCost request) row.currency rate
      draw).wp R Q E w (afterDebit u row cost) := by
  simp only [Checkout.insertOrder, Prog.bind_eq]
  rw [hdebit.account, Prog.bind]
  rcases uuidParam_value request.instrumentId with ⟨i, hi⟩ | ⟨e, he⟩
  swap
  · rw [he]; exact hE _ (.instrument hrate he)
  rw [hi, Prog.bind, hdebit.cost_eq, Prog.bind]
  rcases bigintParam_value (request.quantity * 1000000) with ⟨q, hm⟩ | ⟨e, he⟩
  swap
  · rw [he]; exact hE _ (.quantity hrate hi he)
  rw [hm]
  intro hnew _ hc
  refine hq w _ hrow ⟨rate, i, q, hrate, hi, hm, rfl⟩ ?_ ?_
  · simpa using hc
  · simpa using hnew _ List.mem_cons_self

theorem wp_checkout (hR : LedgerRely R)
    {Q : LedgerReply → LedgerWorld ι → LedgerSession → Prop} {w : LedgerWorld ι}
    (hq : ∀ r w s, Wrote env w.db (.checkout request draw) r s.writes → Q r w s)
    (hE : ∀ e w s, Refused R env request e w s → E e w s) :
    ((LedgerCall.checkout request draw).body env).wp R Q E w
      (Session.init []) := by
  simp only [LedgerCall.body, Checkout.body, Prog.bind_eq, Prog.pure_eq,
    Prog.wp_bind]
  split
  swap
  · next hqty => exact hE _ _ _ (.quantity (by simpa using hqty))
  next hqty =>
  simp only [Checkout.transaction, Prog.bind_eq, Prog.wp_bind]
  refine wp_debitAccount hR hqty ?_ hE
  intro w₁ u row cost hdebit hrow₁ w₂ hw₂
  have hrow₂ : w₂.db.get (.account u) = some row := by
    rw [hR.held hw₂ _ (by simp), hrow₁]
  rw [Prog.wp_bind]
  refine wp_resolveFxRate (hR.refl hw₂ _) ?_ ?_
  swap
  · intro hrate w₃ hw₃
    refine hE _ _ _ (.stopped hdebit ?_ (.rate hrate))
    rw [hR.held hw₃ _ (by simp), hrow₂]
  intro rate hrate w₃ hw₃
  have hrow₃ : w₃.db.get (.account u) = some row := by
    rw [hR.held hw₃ _ (by simp), hrow₂]
  rw [Prog.wp_bind]
  refine wp_insertOrder hdebit hrow₃ hrate ?_ ?_
  swap
  · exact fun e hstop => hE _ _ _ (.stopped hdebit hrow₃ hstop)
  intro w₄ order hrow₄ horder hcheck hnew w₅ hw₅ hjob _ _ w₆ hw₆
  have hrow₆ : w₆.db.get (.account u) = some row := by
    rw [hR.held hw₆ _ (by simp), hR.held hw₅ _ (by simp), hrow₄]
  have hnew₆ : w₆.db.get (.transaction draw.orderId) = none := by
    rw [hR.held hw₆ _ (by simp), hR.held hw₅ _ (by simp), hnew]
  have hjob₆ : w₆.db.get (.job draw.jobId) = none := by
    rw [hR.held hw₆ _ (by simp)]
    simpa using hjob _ List.mem_cons_self
  obtain ⟨rate', i, q, _, _, _, rfl⟩ := id horder
  have hcheck₆ := hcheck
  rw [transactionConstraints_congr (w₆.db.set (.account u)
    (some (debited row cost))) (by simp [Checkout.orderRow])] at hcheck₆
  have hbuys : Buys env request draw w₆.db u row cost _ :=
    ⟨hdebit, hrow₆, horder, hcheck₆, hnew₆, hjob₆⟩
  exact hq _ _ _ (by simpa [boughtWrites] using .bought hbuys)

end InvestApi.Ref
