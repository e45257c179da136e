import InvestApi.Ref.Pagination

/-!
# Accounts

`src/accounts`: the repository's statements and AccountsService, and
`assertOwner`, which every service shares.
-/

namespace InvestApi.Ref

open InvestApi.Pg InvestApi.Codec

def assertOwner (ownerId : Uuid) (user : AuthUser) (what : String) :
    Except ApiError Unit :=
  if ownerId ≠ user.id then
    .error (.problem 403 "forbidden" (what ++ " belongs to another user"))
  else .ok ()

/-- A check that throws inside the callback. -/
def orThrow {α : Type} : Except ApiError α → LedgerProg α
  | .ok a => .ret a
  | .error e => .raise e

def accountNotFound (id : String) : ApiError :=
  .problem 404 "account-not-found" ("account " ++ id ++ " was not found")

namespace AccountsRepository

def toDomain (id : Uuid) (row : AccountRow) : OwnedAccount where
  id := id
  user_id := row.userId
  name := .ofString row.name
  type := row.type
  currency := row.currency
  balance_cents := row.balanceCents
  created_at := toISOString row.createdAt

def findById (id : String) : LedgerProg (Option OwnedAccount) := do
  let u ← uuidParam id
  .query fun d => (d.get (.account u)).map (toDomain u)

/-- The accounts of `d` whose id is one of `ids`, each once. -/
def whereIdIn (ids : List Uuid) (d : LedgerDb) : List OwnedAccount :=
  d.keys.filterMap fun
    | .account u => if u ∈ ids then (d.get (.account u)).map (toDomain u) else none
    | _ => none

def findByIds (ids : List String) : LedgerProg (List OwnedAccount) := do
  if ids.isEmpty then
    .ret []
  else
    let us ← ids.mapM uuidParam
    .query (whereIdIn us)

/-- The accounts of one user. -/
def ownedBy (userId : Uuid) (d : LedgerDb) : List (Uuid × AccountRow) :=
  d.keys.filterMap fun
    | .account u =>
        (d.get (.account u)).bind fun row =>
          if row.userId = userId then some (u, row) else none
    | _ => none

def sortKey (row : Uuid × AccountRow) : SortKey :=
  toLex (row.2.createdAt.timestamptz, row.1)

def findPage (env : Env) (userId : Uuid) (limit : Nat)
    (cursor : Option CursorPayload) : LedgerProg (List OwnedAccount) := do
  let after ← cursorParams env cursor
  .query fun d =>
    (Keyset.page sortKey limit after (ownedBy userId d)).map fun (u, row) =>
      toDomain u row

def toRow (account : Account) (userId : Uuid) (createdAt : Instant) :
    AccountRow where
  userId := userId
  currency := account.currency
  name := account.name.utf8
  type := account.type
  balanceCents := account.balance_cents
  isArchived := false
  createdAt := createdAt

def setRow (row : AccountRow) :
    (k : LedgerKey) → LedgerRow k → RowAct (LedgerRow k)
  | .account _, _ => .put row
  | .transaction _, _ => .skip
  | .job _, _ => .skip

/-- TypeORM's `save`: a SELECT by primary key decides between INSERT and
UPDATE. -/
def save (env : Env) (account : Account) (userId : Uuid) (createdAt : Instant) :
    LedgerProg Unit := do
  let row := toRow account userId createdAt
  let found ← .query fun d => (d.get (.account account.id)).isSome
  if found then
    .update .saveAccount (fun d => d.only (.account account.id) fun _ => true)
      (setRow row) fun _ _ => .ret ()
  else
    .insert [⟨.account account.id, row⟩]
      (fun _ => accountConstraints env row) (.ret ())

def addToBalance (delta : Int) :
    (k : LedgerKey) → LedgerRow k → RowAct (LedgerRow k)
  | .account _, row =>
      if inBigint (row.balanceCents + delta) then
        .put { row with balanceCents := row.balanceCents + delta }
      else .fail
  | .transaction _, _ => .skip
  | .job _, _ => .skip

def updateBalance (id : String) (delta : Int) : LedgerProg Unit := do
  let u ← uuidParam id
  .update .updateBalance (fun d => d.only (.account u) fun _ => true)
    (addToBalance delta) fun _ _ => .ret ()

end AccountsRepository

structure CreateAccountDto where
  name : JsString
  type : AccountType
  currency : String
  opening_balance_cents : Int
  deriving DecidableEq, Repr

namespace AccountsService

def list (env : Env) (user : AuthUser) (limit : Nat) (cursor : Option String) :
    LedgerProg (Page Account) := do
  let cursor ← orThrow (cursorArgument cursor)
  let rows ← AccountsRepository.findPage env user.id limit cursor
  return {
    items := rows.map (·.toAccount)
    next_cursor :=
      if rows.length = limit then
        rows.getLast?.map fun last => encodeCursor last.created_at last.id.text
      else none }

/-- `id` is what randomUUID draws, `now` what the clock reads. -/
def create (env : Env) (input : CreateAccountDto) (user : AuthUser) (id : Uuid)
    (now : Instant) : LedgerProg Account := do
  let account : Account := {
    id := id
    name := input.name
    type := input.type
    currency := input.currency
    balance_cents := input.opening_balance_cents
    created_at := toISOString now }
  AccountsRepository.save env account user.id now
  return account

def getById (accountId : String) (user : AuthUser) : LedgerProg Account := do
  match ← AccountsRepository.findById accountId with
  | none => .raise (accountNotFound accountId)
  | some account =>
      orThrow (assertOwner account.user_id user ("account " ++ accountId))
      return account.toAccount

end AccountsService

end InvestApi.Ref
