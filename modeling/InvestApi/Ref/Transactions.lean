import InvestApi.Ref.Accounts

/-!
# Transactions

`src/transactions`: the DTO, the repository's statements and TransactionsService.
The batch is validated entry by entry, in the client's order, and the first
bad entry throws. A JavaScript `Map` is a list of pairs in insertion order.
-/

namespace InvestApi.Ref

open InvestApi.Pg InvestApi.Codec

structure TransactionEntryDto where
  account_id : String
  type : TransactionType
  amount_cents : Int
  currency : String
  booked_at : String
  description : Option JsString
  instrument_symbol : Option String
  quantity_micro : Option Int
  deriving DecidableEq, Repr

structure CreateTransactionsDto where
  entries : List TransactionEntryDto
  deriving DecidableEq, Repr

/-! What the validation pipe lets through, by the decorators of the DTO. The checks on
texts are class-validator's; the rest, a member of an enumeration, a bound, is said
here. The type of an entry, an optional field and an integer are types of the model. -/

/-- class-validator's checks on texts. -/
structure Validators where
  isUUID4 : String → Bool
  isISO8601 : String → Bool
  maxLength : Nat → JsString → Bool

/-- The enum of `src/domain/currency`. -/
def Currency : List String :=
  ["UAH", "AED", "AUD", "AZN", "BDT", "CAD", "CHF", "CNY", "CZK", "DKK", "DZD", "EGP",
    "EUR", "GBP", "GEL", "HKD", "HUF", "IDR", "ILS", "INR", "JPY", "KRW", "KZT", "LBP",
    "MDL", "MXN", "MYR", "NOK", "NZD", "PLN", "RON", "RSD", "SAR", "SEK", "SGD", "THB",
    "TND", "TRY", "USD", "VND", "ZAR"]

/-- `quantity_micro` is asked to be an integer, and no more. -/
def TransactionEntryDto.accepted (v : Validators) (entry : TransactionEntryDto) : Bool :=
  v.isUUID4 entry.account_id
    && decide (0 ≤ entry.amount_cents)
    && Currency.contains entry.currency
    && v.isISO8601 entry.booked_at
    && entry.description.all (v.maxLength 500)
    && entry.instrument_symbol.all (fun s => v.maxLength 20 (.ofString s))

def CreateTransactionsDto.accepted (v : Validators) (input : CreateTransactionsDto) : Bool :=
  decide (1 ≤ input.entries.length ∧ input.entries.length ≤ 100)
    && input.entries.all (·.accepted v)

/-- What class-validator promises of a text it takes for a v4 uuid: the hex form
in groups of 8-4-4-4-12, which Postgres reads. -/
def Validators.ReadsUuid (v : Validators) : Prop :=
  ∀ s, v.isUUID4 s = true → ∃ u, pgUuidIn s = some u

namespace TransactionsRepository

def toDomain (env : Env) (id : Uuid) (row : TransactionRow) : Transaction where
  id := id
  account_id := row.accountId.text
  type := row.type
  amount_cents := row.amountCents
  currency := row.currency
  created_at := toISOString row.createdAt
  booked_at := toISOString row.bookedAt
  description := row.description.map .ofString
  quantity_micro := row.quantityMicro
  instrument_symbol := row.instrumentId.bind fun i =>
    (env.instruments.find? fun x => x.id = i).map (·.symbol)

def findById (env : Env) (id : String) : LedgerProg (Option Transaction) := do
  let u ← uuidParam id
  .query fun d => (d.get (.transaction u)).map (toDomain env u)

/-- The transactions on one user's accounts, on one account if it is given. -/
def ownedBy (userId : Uuid) (accountId : Option Uuid) (d : LedgerDb) :
    List (Uuid × TransactionRow) :=
  d.keys.filterMap fun
    | .transaction u =>
        (d.get (.transaction u)).bind fun row =>
          if (d.get (.account row.accountId)).any (fun owner => owner.userId = userId)
              && accountId.all (fun a => row.accountId = a) then
            some (u, row)
          else none
    | _ => none

def sortKey (row : Uuid × TransactionRow) : SortKey :=
  toLex (row.2.bookedAt.timestamptz, row.1)

/-- A parameter that `if (accountId)` leaves out. -/
def accountParam : Option String → LedgerProg (Option Uuid)
  | none => .ret none
  | some accountId => do
      let u ← uuidParam accountId
      return some u

def findPage (env : Env) (userId : Uuid) (limit : Nat)
    (cursor : Option CursorPayload) (accountId : Option String) :
    LedgerProg (List Transaction) := do
  let account ← accountParam (truthy accountId)
  let after ← cursorParams env cursor
  .query fun d =>
    (Keyset.page sortKey limit after (ownedBy userId account d)).map fun (u, row) =>
      toDomain env u row

/-- The row `saveMany` maps one transaction of the batch to. -/
def toRow (env : Env) (rates : List (String × Numeric)) (tx : Transaction)
    (accountId : Uuid) (bookedAt createdAt : Instant) : TransactionRow where
  accountId := accountId
  instrumentId := tx.instrument_symbol.bind fun s =>
    if s.isEmpty then none
    else (env.instruments.find? fun x => x.symbol = s).map (·.id)
  categoryId := none
  currency := tx.currency
  type := tx.type
  status := .posted
  amountCents := tx.amount_cents
  -- A key the map misses leaves the column to its DEFAULT '1'.
  fxRate := (rates.lookup (fxRateKey tx.currency bookedAt)).getD Numeric.one
  quantityMicro := tx.quantity_micro
  unitPrice := none
  bookedAt := bookedAt
  description := tx.description.map (·.utf8)
  createdAt := createdAt

def unknownSymbols (env : Env) (transactions : List Transaction) : List String :=
  (transactions.filterMap (·.instrument_symbol)).eraseDups.filter fun s =>
    !(env.instruments.any fun x => x.symbol = s)

/-- `new Date(tx.booked_at)`; the first use of an Invalid Date throws. -/
def bookedDate (env : Env) (tx : Transaction) : LedgerProg Instant :=
  match env.newDate tx.booked_at with
  | none => .raise (.error "Invalid time value")
  | some t => .ret t

/-- The rows of the batch, each under its id. -/
def batchRows (env : Env) (rates : List (String × Numeric)) (now : Instant)
    (batch : List (Transaction × Uuid × Instant)) : List (KeyedRow LedgerRow) :=
  batch.map fun (tx, accountId, bookedAt) =>
    ⟨.transaction tx.id, toRow env rates tx accountId bookedAt now⟩

def saveMany (env : Env) (transactions : List Transaction) (now : Instant) :
    LedgerProg Unit := do
  if transactions.isEmpty then
    .ret ()
  else if (transactions.filterMap (·.instrument_symbol)).any hasNul then
    .raise (.db "22021")
  else
    let unknown ← .query fun _ => unknownSymbols env transactions
    if unknown ≠ [] then
      .raise (.problem 422 "instrument-not-found"
        ("unknown instrument_symbol: " ++ ", ".intercalate unknown))
    else
      let dates ← transactions.mapM (bookedDate env)
      let rates ← .query fun _ =>
        FxRatesService.getEffectiveRates env.fxRates env.cache
          ((transactions.map (·.currency)).zip dates)
      let rates ← orThrow rates
      let accountIds ← transactions.mapM fun tx => uuidParam tx.account_id
      let rows := batchRows env rates now
        (transactions.zip (accountIds.zip dates))
      .insert rows
        (fun d => rows.all fun
          | ⟨.transaction _, row⟩ => transactionConstraints env d row
          | _ => true)
        (.ret ())

end TransactionsRepository

namespace TransactionsService

def toWire (env : Env) (tx : Transaction) : TransactionResponse :=
  toTransaction tx env.drift

/-- The check `list` makes on the account it is asked to narrow to. -/
def checkAccount (user : AuthUser) : Option String → LedgerProg Unit
  | none => .ret ()
  | some accountId => do
      match ← AccountsRepository.findById accountId with
      | none => .raise (accountNotFound accountId)
      | some account => orThrow (assertOwner account.user_id user ("account " ++ accountId))

def list (env : Env) (user : AuthUser) (limit : Nat) (cursor accountId : Option String) :
    LedgerProg (Page TransactionResponse) := do
  checkAccount user (truthy accountId)
  let cursor ← orThrow (cursorArgument cursor)
  let rows ← TransactionsRepository.findPage env user.id limit cursor accountId
  return {
    items := rows.map (toWire env)
    next_cursor :=
      if rows.length = limit then
        rows.getLast?.map fun last => encodeCursor last.booked_at last.id.text
      else none }

/-- `deltas.set(id, (deltas.get(id) ?? 0) + x)`. -/
def addDelta (id : String) (x : Int) : List (String × Int) → List (String × Int)
  | [] => [(id, x)]
  | (k, v) :: rest =>
      if k = id then (k, v + x) :: rest else (k, v) :: addDelta id x rest

/-- `Boolean(entry.instrument_symbol)`. -/
def hasSymbol (entry : TransactionEntryDto) : Bool :=
  entry.instrument_symbol.any fun s => !s.isEmpty

def needsInstrument (t : TransactionType) : Bool := t == .buy || t == .sell

/-- The checks on one entry, in the order the loop makes them. -/
def checkEntry (accounts : List OwnedAccount) (user : AuthUser)
    (entry : TransactionEntryDto) : Except ApiError Unit :=
  match accounts.find? fun a => a.id.text = entry.account_id with
  | none => .error (accountNotFound entry.account_id)
  | some account =>
      match assertOwner account.user_id user ("account " ++ account.id.text) with
      | .error e => .error e
      | .ok () =>
          if account.currency ≠ entry.currency then
            .error (.problem 422 "currency-mismatch"
              ("currency " ++ entry.currency
                ++ " does not match the currency of account "
                ++ account.id.text ++ " (" ++ account.currency ++ ")"))
          else if needsInstrument entry.type ≠ hasSymbol entry then
            .error (.problem 422 "instrument-type-mismatch"
              (if needsInstrument entry.type then
                "type " ++ entry.type.text ++ " requires instrument_symbol"
              else
                "instrument_symbol is only valid for buy and sell, not "
                  ++ entry.type.text))
          else .ok ()

def toBatch (entry : TransactionEntryDto) (id : Uuid) (now : Instant) :
    Transaction where
  id := id
  account_id := entry.account_id
  type := entry.type
  amount_cents := entry.amount_cents
  currency := entry.currency
  booked_at := entry.booked_at
  description := entry.description
  instrument_symbol := entry.instrument_symbol
  quantity_micro := entry.quantity_micro
  created_at := toISOString now

/-- The loop over the entries, each with the id randomUUID draws for it. -/
def collect (accounts : List OwnedAccount) (user : AuthUser) (now : Instant) :
    List (TransactionEntryDto × Uuid) → List Transaction → List (String × Int) →
      Except ApiError (List Transaction × List (String × Int))
  | [], batch, deltas => .ok (batch, deltas)
  | (entry, id) :: rest, batch, deltas =>
      match checkEntry accounts user entry with
      | .error e => .error e
      | .ok () =>
          collect accounts user now rest (batch ++ [toBatch entry id now])
            (addDelta entry.account_id (SIGN entry.type * entry.amount_cents)
              deltas)

/-- The callback of `create`; `ids n` is what the n-th randomUUID draws. -/
def create (env : Env) (input : CreateTransactionsDto) (user : AuthUser)
    (ids : Nat → Uuid) (now : Instant) : LedgerProg (List Transaction) := do
  let accountIds := (input.entries.map (·.account_id)).eraseDups
  let accounts ← AccountsRepository.findByIds accountIds
  let (batch, deltas) ← orThrow (collect accounts user now
    (input.entries.zipIdx.map fun (entry, n) => (entry, ids n)) [] [])
  TransactionsRepository.saveMany env batch now
  deltas.forM fun (id, delta) => AccountsRepository.updateBalance id delta
  return batch

def getById (env : Env) (transactionId : String) (user : AuthUser) :
    LedgerProg TransactionResponse := do
  match ← TransactionsRepository.findById env transactionId with
  | none =>
      .raise (.problem 404 "transaction-not-found"
        ("transaction " ++ transactionId ++ " was not found"))
  | some tx =>
      match ← AccountsRepository.findById tx.account_id with
      | none => .raise (.error "account is undefined")
      | some account =>
          orThrow (assertOwner account.user_id user
            ("transaction " ++ transactionId))
          return toWire env tx

end TransactionsService

end InvestApi.Ref
