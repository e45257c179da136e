import InvestApi.Ref.Checkout
import InvestApi.Ref.Orders

/-!
# The ledger's concurrent calls

The four operations that write accounts, transactions or jobs, as the calls
of one system: a call is an operation with its input and with what its
random ids and its clock will answer.
-/

namespace InvestApi.Ref

open InvestApi.Pg

inductive LedgerCall where
  | createAccount (input : CreateAccountDto) (user : AuthUser) (id : Uuid)
      (now : Instant)
  | createTransactions (input : CreateTransactionsDto) (user : AuthUser)
      (ids : Nat → Uuid) (now : Instant)
  | changeStatus (orderId : String) (status : TransactionStatus)
      (user : AuthUser)
  | checkout (request : CheckoutRequest) (draw : CheckoutDraw)

inductive LedgerReply where
  | account (account : Account)
  | transactions (batch : List Transaction)
  | changed (changed : Bool)
  | checkout (success : CheckoutSuccess)
  deriving DecidableEq, Repr

def LedgerCall.body (env : Env) : LedgerCall → LedgerProg LedgerReply
  | .createAccount input user id now => do
      let account ← AccountsService.create env input user id now
      return .account account
  | .createTransactions input user ids now => do
      let batch ← TransactionsService.create env input user ids now
      return .transactions batch
  | .changeStatus orderId status user => do
      let changed ← OrdersService.changeStatus orderId status user
      return .changed changed
  | .checkout request draw => do
      let success ← Checkout.body env request draw
      return .checkout success

/-- `save` looks its id up before it inserts, so the id randomUUID drew has to
be nobody's. The other ids only meet the primary key of their INSERT. -/
def LedgerCall.draws : LedgerCall → List LedgerKey
  | .createAccount _ _ id _ => [.account id]
  | _ => []

def ledgerSystem {ι : Type} (env : Env) (calls : ι → LedgerCall) :
    System ι LedgerRow LedgerStmt ApiError LedgerReply where
  body i := (calls i).body env
  draws i := (calls i).draws
  fresh d k := (d.get k).isNone

/-- Every id a call has drawn for it: randomUUID's, and what the column
default gen_random_uuid() answers an INSERT. -/
def LedgerCall.randomIds : LedgerCall → List LedgerKey
  | .createAccount _ _ id _ => [.account id]
  | .createTransactions input _ ids _ =>
      (List.range input.entries.length).map fun n => .transaction (ids n)
  | .changeStatus _ _ _ => []
  | .checkout _ draw => [.transaction draw.orderId, .job draw.jobId]

/-- The same calls where no two random ids ever meet: an INSERT has no reason
to wait for another. -/
def uuidSystem {ι : Type} (env : Env) (calls : ι → LedgerCall) :
    System ι LedgerRow LedgerStmt ApiError LedgerReply :=
  { ledgerSystem env calls with draws := fun i => (calls i).randomIds }

/-- A world of the ledger. -/
abbrev LedgerWorld (ι : Type) := World ι LedgerRow ApiError LedgerReply

abbrev LedgerState (ι : Type) :=
  State ι LedgerRow LedgerStmt ApiError LedgerReply

abbrev LedgerSession := Session LedgerRow LedgerStmt

end InvestApi.Ref
