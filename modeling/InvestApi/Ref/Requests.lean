import InvestApi.Ref.Orders

/-!
# Requests, one at a time

The operations AccountsService, TransactionsService and OrdersService offer a
caller, each with its input, its caller and what randomUUID and the clock answer
it, and a server that takes them one after the other.
-/

namespace InvestApi.Ref

open InvestApi.Pg

inductive Request where
  | listAccounts (user : AuthUser) (limit : Nat) (cursor : Option String)
  | createAccount (input : CreateAccountDto) (user : AuthUser) (id : Uuid) (now : Instant)
  | getAccount (accountId : String) (user : AuthUser)
  | listTransactions (user : AuthUser) (limit : Nat) (cursor accountId : Option String)
  | createTransactions (input : CreateTransactionsDto) (user : AuthUser)
      (ids : Nat → Uuid) (now : Instant)
  | getTransaction (transactionId : String) (user : AuthUser)
  | changeStatus (orderId : String) (status : TransactionStatus) (user : AuthUser)

inductive Reply where
  | accountPage (page : Page Account)
  | account (account : Account)
  | transactionPage (page : Page TransactionResponse)
  | transactions (batch : List TransactionResponse)
  | transaction (transaction : TransactionResponse)
  | order (id : String) (status : TransactionStatus)
  deriving DecidableEq, Repr

namespace Request

def user : Request → AuthUser
  | listAccounts user _ _ => user
  | createAccount _ user _ _ => user
  | getAccount _ user => user
  | listTransactions user _ _ _ => user
  | createTransactions _ user _ _ => user
  | getTransaction _ user => user
  | changeStatus _ _ user => user

def body (env : Env) : Request → LedgerProg Reply
  | listAccounts user limit cursor => do
      let page ← AccountsService.list env user limit cursor
      return .accountPage page
  | createAccount input user id now => do
      let account ← AccountsService.create env input user id now
      return .account account
  | getAccount accountId user => do
      let account ← AccountsService.getById accountId user
      return .account account
  | listTransactions user limit cursor accountId => do
      let page ← TransactionsService.list env user limit cursor accountId
      return .transactionPage page
  | createTransactions input user ids now => do
      let created ← TransactionsService.create env input user ids now
      return .transactions (created.map (TransactionsService.toWire env))
  | getTransaction transactionId user => do
      let transaction ← TransactionsService.getById env transactionId user
      return .transaction transaction
  | changeStatus orderId status user => do
      let _ ← OrdersService.changeStatus orderId status user
      return .order orderId status

/-- The ids randomUUID draws for the request. -/
def draws : Request → List LedgerKey
  | createAccount _ _ id _ => [.account id]
  | createTransactions input _ ids _ =>
      (List.range input.entries.length).map fun n => .transaction (ids n)
  | _ => []

/-- The rows the request names by id. -/
def names : Request → List LedgerKey
  | getAccount accountId _ => (pgUuidIn accountId).toList.map .account
  | listTransactions _ _ _ accountId =>
      ((truthy accountId).bind pgUuidIn).toList.map .account
  | createTransactions input _ _ _ =>
      (input.entries.filterMap fun entry => pgUuidIn entry.account_id).map .account
  | getTransaction transactionId _ => (pgUuidIn transactionId).toList.map .transaction
  | changeStatus orderId _ _ => (pgUuidIn orderId).toList.map .transaction
  | listAccounts _ _ _ => []
  | createAccount _ _ _ _ => []

end Request

/-- A request with the rows it found and what it was answered. -/
structure Served where
  request : Request
  before : LedgerDb
  response : Finish ApiError Reply

/-- The requests one after the other, and the rows they leave. -/
def serve (env : Env) : LedgerDb → List Request → List Served × LedgerDb
  | d, [] => ([], d)
  | d, r :: rs =>
      let done := (r.body env).alone d []
      let rest := serve env done.2 rs
      (⟨r, d, done.1⟩ :: rest.1, rest.2)

end InvestApi.Ref
