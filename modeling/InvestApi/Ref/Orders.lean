import InvestApi.Ref.Transactions

/-!
# Orders

`src/orders/orders.service.ts`: a status change locks the order's row, and
books or un-books its amount when the order crosses the line between posted
and not posted.
-/

namespace InvestApi.Ref

open InvestApi.Pg

structure LockedOrder where
  status : TransactionStatus
  type : TransactionType
  amount_cents : Int
  account_id : String
  user_id : Uuid
  deriving DecidableEq, Repr

namespace OrdersService

/-- What the SELECT … FOR UPDATE OF t answers: the locked row, joined with
its account as the statement's snapshot has it. -/
def lockedOrder (snap : LedgerDb) : List (KeyedRow LedgerRow) → Option LockedOrder
  | ⟨.transaction _, t⟩ :: _ =>
      (snap.get (.account t.accountId)).map fun a =>
        { status := t.status, type := t.type, amount_cents := t.amountCents,
          account_id := t.accountId.text, user_id := a.userId }
  | _ => none

def lockOrder (u : Uuid) : LedgerProg (Option LockedOrder) :=
  .update .lockOrder
    (fun d => d.only (.transaction u) fun t =>
      (d.get (.account t.accountId)).isSome)
    (fun _ row => .put row)
    fun snap rows => .ret (lockedOrder snap rows)

def setStatusRow (status : TransactionStatus) :
    (k : LedgerKey) → LedgerRow k → RowAct (LedgerRow k)
  | .transaction _, t => .put { t with status := status }
  | .account _, _ => .skip
  | .job _, _ => .skip

def setStatus (u : Uuid) (status : TransactionStatus) : LedgerProg Unit :=
  .update .setStatus (fun d => d.only (.transaction u) fun _ => true)
    (setStatusRow status) fun _ _ => .ret ()

/-- The callback of `changeStatus`; it returns whether anything changed. -/
def changeStatus (orderId : String) (status : TransactionStatus)
    (user : AuthUser) : LedgerProg Bool := do
  let u ← uuidParam orderId
  match ← lockOrder u with
  | none =>
      .raise (.problem 404 "order-not-found"
        ("order " ++ orderId ++ " was not found"))
  | some order =>
      orThrow (assertOwner order.user_id user ("order " ++ orderId))
      if order.status = status then
        return false
      else
        setStatus u status
        if (order.status == .posted) ≠ (status == .posted) then
          let booked := SIGN order.type * order.amount_cents
          AccountsRepository.updateBalance order.account_id
            (if status = .posted then booked else -booked)
          return true
        else
          return true

end OrdersService

end InvestApi.Ref
