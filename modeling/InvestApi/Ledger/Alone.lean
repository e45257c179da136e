import InvestApi.Ledger.Buying

/-!
# A checkout on its own

What `checkout` answers when its four statements run with nobody else about:
what `Buys` says if the account pays and the rest goes through, and the
rejection that `Refused` would name otherwise. One theorem for each statement,
with whatever follows it as a parameter.
-/

namespace InvestApi.Ref

open InvestApi.Pg

variable {env : Env} {request : CheckoutRequest} {draw : CheckoutDraw}
  {d : LedgerDb} {β : Type}

theorem exec_debitAccount {u : Uuid} {row : AccountRow} {cost : Int}
    (h : Debits request u row cost) (hrow : d.get (.account u) = some row)
    (f : AccountRow → LedgerProg β) :
    ((Checkout.debitAccount request.accountId (Checkout.sentCost request)).bind f).exec d
        none (Session.init [])
      = (f (debited row cost)).exec d none (afterDebit u row cost) := by
  have henough : decide (row.balanceCents ≥ cost) = true := by simpa using h.enough
  have hact : Checkout.debitRow cost (.account u) row = .put (debited row cost) := by
    simp only [Checkout.debitRow, h.enough, h.fits, if_true, debited]
  simp only [Checkout.debitAccount, Checkout.debit, Prog.bind_eq, h.account,
    h.cost_eq, Prog.bind]
  rw [Prog.exec_update_only]
  simp only [Session.view_init, hrow, henough, if_true, hact]
  rfl

theorem exec_debitAccount_poor {u : Uuid} {cost : Int}
    (hu : uuidParam request.accountId = .ret u)
    (hc : bigintParam (Checkout.sentCost request) = .ret cost)
    (hpoor : Poor d u cost) (f : AccountRow → LedgerProg β) :
    ((Checkout.debitAccount request.accountId (Checkout.sentCost request)).bind f).exec d
        none (Session.init [])
      = (.raised (.checkoutRejected (if (d.get (.account u)).isSome
          then .insufficient_funds else .account_not_found)),
        (Session.init []).tag .debitAccount) := by
  simp only [Checkout.debitAccount, Checkout.debit, Prog.bind_eq, hu, hc,
    Prog.bind]
  rw [Prog.exec_update_only]
  cases hrow : d.get (.account u) with
  | none => simp [hrow, Prog.bind, Prog.exec, Prog.query, Checkout.debitedRow]
  | some row =>
      have hless := hpoor row hrow
      have hnot : decide (row.balanceCents ≥ cost) = false := by simpa using hless
      simp [hrow, hnot, Prog.bind, Prog.exec, Prog.query, Checkout.debitedRow]

theorem exec_resolveFxRate {currency : String} {s : LedgerSession}
    (f : Numeric → LedgerProg β) :
    ((Checkout.resolveFxRate env currency).bind f).exec d none s
      = match rateOf env currency with
        | some rate => (f rate).exec d none s
        | none => (.raised (.checkoutRejected .no_fx_rate), s) := by
  unfold Checkout.resolveFxRate rateOf
  split
  · rfl
  · cases hrate : Checkout.latestRate env currency with
    | none => simp [Prog.bind, Prog.exec, Prog.query]
    | some row => simp [Prog.bind, Prog.exec, Prog.query]

/-- The body of the call after its quantity check, in sequence. -/
theorem exec_checkout (hqty : Checkout.quantityOk request = true) :
    ((LedgerCall.checkout request draw).body env).exec d none (Session.init [])
      = ((Checkout.debitAccount request.accountId (Checkout.sentCost request)).bind
          fun row =>
        (Checkout.resolveFxRate env row.currency).bind fun rate =>
        (Checkout.insertOrder env request (Checkout.sentCost request) row.currency rate
          draw).bind fun _ =>
        (Checkout.insertJob request draw).bind fun _ =>
        .ret (.checkout ⟨draw.orderId, draw.jobId, double row.balanceCents,
          Checkout.costCents request, row.currency⟩)).exec d none
        (Session.init []) := by
  simp only [LedgerCall.body, Checkout.body, hqty, if_true, Checkout.transaction,
    Prog.bind_eq, Prog.pure_eq, Prog.bind_assoc, Prog.bind]

theorem alone_bought {u : Uuid} {row : AccountRow} {cost : Int}
    {order : TransactionRow} (h : Buys env request draw d u row cost order) :
    ((LedgerCall.checkout request draw).body env).alone d []
      = (.committed (.checkout (bought request draw row cost)),
        d.writeAll (boughtWrites request draw u row cost order)) := by
  obtain ⟨rate, i, q, hrate, hi, hq, horder⟩ := h.order_eq
  have horder_ok : Prog.canInsert ((afterDebit u row cost).view d)
      [⟨.transaction draw.orderId, order⟩]
      (fun d => transactionConstraints env d order) = true := by
    simp [Prog.canInsert, h.order_new, h.order_ok]
  have hjob_ok : Prog.canInsert (((afterDebit u row cost).putRows
      [⟨.transaction draw.orderId, order⟩]).view d)
      [⟨.job draw.jobId, Checkout.jobRow request draw⟩] (fun _ => true) = true := by
    simp [Prog.canInsert, h.job_new]
  rw [Prog.alone, exec_checkout h.quantity, exec_debitAccount h.toDebits h.row_eq,
    exec_resolveFxRate]
  have hcur : (debited row cost).currency = row.currency := rfl
  rw [hcur, hrate]
  simp only [Checkout.insertOrder, Checkout.insertJob, Prog.bind_eq, h.account, hi,
    h.cost_eq, hq, Prog.bind, Prog.exec, ← horder, horder_ok, hjob_ok, if_true,
    Option.map_none]
  simp [boughtWrites, bought, debited]

theorem alone_stopped {u : Uuid} {row : AccountRow} {cost : Int} {e : ApiError}
    (h : Debits request u row cost) (hrow : d.get (.account u) = some row)
    (hstop : Stops env request row e) :
    ((LedgerCall.checkout request draw).body env).alone d [] = (.raised e, d) := by
  rw [Prog.alone, exec_checkout h.quantity, exec_debitAccount h hrow,
    exec_resolveFxRate]
  have hcur : (debited row cost).currency = row.currency := rfl
  rw [hcur]
  cases hstop with
  | rate hrate => rw [hrate]
  | instrument hrate hi =>
      simp only [hrate, Checkout.insertOrder, Prog.bind_eq, h.account, hi,
        Prog.bind, Prog.exec]
  | quantity hrate hi hm =>
      simp only [hrate, Checkout.insertOrder, Prog.bind_eq, h.account, hi,
        h.cost_eq, hm, Prog.bind, Prog.exec]

theorem alone_poor {u : Uuid} {cost : Int}
    (hqty : Checkout.quantityOk request = true)
    (hu : uuidParam request.accountId = .ret u)
    (hc : bigintParam (Checkout.sentCost request) = .ret cost)
    (hpoor : Poor d u cost) :
    ((LedgerCall.checkout request draw).body env).alone d []
      = (.raised (.checkoutRejected (if (d.get (.account u)).isSome
          then .insufficient_funds else .account_not_found)), d) := by
  rw [Prog.alone, exec_checkout hqty, exec_debitAccount_poor hu hc hpoor]

end InvestApi.Ref
