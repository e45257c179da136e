import InvestApi.Ref.LedgerSystem
import InvestApi.Ref.Requests

/-!
# The ledger's calls on JavaScript numbers

Three of the services above compute with integers. In JavaScript an amount is a
double, and so is a quantity: it is rounded when its text is read, in a body or in
a bigint column, and when two of them are added, and what Postgres gets of it is
its shortest text.
Here the three operations are the ones above with these roundings written in; a
checkout has had them from the start.

An exponent has no bounds, so nothing becomes Infinity.
-/

namespace InvestApi.Ref

open InvestApi.Pg

def bigintTransformerFrom (value : Int) : Int := double value

namespace Doubles

/-! ## AccountsService.create -/

def createAccount (env : Env) (input : CreateAccountDto) (user : AuthUser)
    (id : Uuid) (now : Instant) : LedgerProg Account := do
  let account : Account := {
    id := id
    name := input.name
    type := input.type
    currency := input.currency
    balance_cents := double input.opening_balance_cents
    created_at := toISOString now }
  AccountsRepository.save env
    { account with balance_cents := bigintText account.balance_cents } user.id now
  return account

/-! ## TransactionsService.create -/

/-- The entry as JSON.parse reads it. -/
def readEntry (entry : TransactionEntryDto) : TransactionEntryDto :=
  { entry with
    amount_cents := double entry.amount_cents
    quantity_micro := entry.quantity_micro.map double }

/-- The account as the entity has it. -/
def readAccount (account : OwnedAccount) : OwnedAccount :=
  { account with balance_cents := bigintTransformerFrom account.balance_cents }

/-- `(deltas.get(id) ?? 0) + x`. -/
def newDelta (id : String) (x : Int) (deltas : List (String × Int)) : Int :=
  double ((deltas.lookup id).getD 0 + x)

/-- `deltas.set(id, delta)`. -/
def setDelta (id : String) (delta : Int) : List (String × Int) → List (String × Int)
  | [] => [(id, delta)]
  | (k, v) :: rest =>
      if k = id then (k, delta) :: rest else (k, v) :: setDelta id delta rest

def addDelta (id : String) (x : Int) (deltas : List (String × Int)) :
    List (String × Int) :=
  setDelta id (newDelta id x deltas) deltas

/-- The loop over the entries. -/
def collect (accounts : List OwnedAccount) (user : AuthUser) (now : Instant) :
    List (TransactionEntryDto × Uuid) → List Transaction → List (String × Int) →
      Except ApiError (List Transaction × List (String × Int))
  | [], batch, deltas => .ok (batch, deltas)
  | (entry, id) :: rest, batch, deltas =>
      match TransactionsService.checkEntry accounts user entry with
      | .error e => .error e
      | .ok () =>
          collect accounts user now rest
            (batch ++ [TransactionsService.toBatch entry id now])
            (addDelta entry.account_id (SIGN entry.type * entry.amount_cents)
              deltas)

/-- The transaction as the INSERT sends it. -/
def sentTransaction (tx : Transaction) : Transaction :=
  { tx with
    amount_cents := bigintText tx.amount_cents
    quantity_micro := tx.quantity_micro.map bigintText }

def createTransactions (env : Env) (input : CreateTransactionsDto)
    (user : AuthUser) (ids : Nat → Uuid) (now : Instant) :
    LedgerProg (List Transaction) := do
  let entries := input.entries.map readEntry
  let accountIds := (entries.map (·.account_id)).eraseDups
  let accounts ← AccountsRepository.findByIds accountIds
  let (batch, deltas) ← orThrow (collect (accounts.map readAccount) user now
    (entries.zipIdx.map fun (entry, n) => (entry, ids n)) [] [])
  TransactionsRepository.saveMany env (batch.map sentTransaction) now
  deltas.forM fun (id, delta) =>
    AccountsRepository.updateBalance id (bigintText delta)
  return batch

/-! ## OrdersService.changeStatus -/

/-- The callback from the locked row on. -/
def afterLock (orderId : String) (u : Uuid) (status : TransactionStatus)
    (user : AuthUser) : Option LockedOrder → LedgerProg Bool
  | none =>
      .raise (.problem 404 "order-not-found"
        ("order " ++ orderId ++ " was not found"))
  | some order => do
      orThrow (assertOwner order.user_id user ("order " ++ orderId))
      if order.status = status then
        return false
      else
        OrdersService.setStatus u status
        if (order.status == .posted) ≠ (status == .posted) then
          let booked := SIGN order.type * double order.amount_cents
          AccountsRepository.updateBalance order.account_id
            (bigintText (if status = .posted then booked else -booked))
          return true
        else
          return true

def changeStatus (orderId : String) (status : TransactionStatus)
    (user : AuthUser) : LedgerProg Bool := do
  let u ← uuidParam orderId
  let order ← OrdersService.lockOrder u
  afterLock orderId u status user order

end Doubles

/-! ## The requests -/

/-- An account as its bigint column is read. -/
def Account.read (account : Account) : Account :=
  { account with balance_cents := bigintTransformerFrom account.balance_cents }

/-- A transaction as its bigint columns are read. -/
def TransactionResponse.read (transaction : TransactionResponse) : TransactionResponse :=
  { transaction with
    amount_cents := transaction.amount_cents.map bigintTransformerFrom
    amountCents := transaction.amountCents.map bigintTransformerFrom
    quantity_micro := transaction.quantity_micro.map bigintTransformerFrom }

/-- A GET copies the numbers it reads, and computes with none. -/
def Reply.read : Reply → Reply
  | .accountPage page => .accountPage { page with items := page.items.map (·.read) }
  | .account a => .account a.read
  | .transactionPage page =>
      .transactionPage { page with items := page.items.map (·.read) }
  | .transaction tx => .transaction tx.read
  | reply => reply

def Request.doubleBody (env : Env) : Request → LedgerProg Reply
  | .createAccount input user id now => do
      let account ← Doubles.createAccount env input user id now
      return .account account
  | .createTransactions input user ids now => do
      let created ← Doubles.createTransactions env input user ids now
      return .transactions (created.map (TransactionsService.toWire env))
  | .changeStatus orderId status user => do
      let _ ← Doubles.changeStatus orderId status user
      return .order orderId status
  | request => do
      let reply ← request.body env
      return reply.read

def LedgerCall.doubleBody (env : Env) : LedgerCall → LedgerProg LedgerReply
  | .createAccount input user id now => do
      let account ← Doubles.createAccount env input user id now
      return .account account
  | .createTransactions input user ids now => do
      let batch ← Doubles.createTransactions env input user ids now
      return .transactions batch
  | .changeStatus orderId status user => do
      let changed ← Doubles.changeStatus orderId status user
      return .changed changed
  | .checkout request draw => do
      let success ← Checkout.body env request draw
      return .checkout success

def doubleSystem {ι : Type} (env : Env) (calls : ι → LedgerCall) :
    System ι LedgerRow LedgerStmt ApiError LedgerReply :=
  { ledgerSystem env calls with body := fun i => (calls i).doubleBody env }

end InvestApi.Ref
