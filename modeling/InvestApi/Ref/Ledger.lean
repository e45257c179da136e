import InvestApi.Pg.Rule
import InvestApi.Ref.FxRates

/-!
# The ledger's tables

The three tables the services write, as one keyed database, and what their
columns and constraints ask of a row. Everything a service reads but does
not write (users, currencies, instruments, rates, the configuration) is in
`Env`, next to what belongs to the engines: `new Date(text)`, Postgres' input
of a `timestamptz`, and the text JavaScript gives a number.
-/

namespace InvestApi.Ref

open InvestApi.Pg

inductive LedgerKey where
  | account (id : Uuid)
  | transaction (id : Uuid)
  | job (id : Uuid)
  deriving DecidableEq, Repr

abbrev LedgerRow : LedgerKey → Type
  | .account _ => AccountRow
  | .transaction _ => TransactionRow
  | .job _ => JobRow

/-- The locking statements of the services. -/
inductive LedgerStmt where
  | saveAccount | updateBalance | lockOrder | setStatus | debitAccount
  deriving DecidableEq, Repr

abbrev LedgerDb := Db LedgerRow

/-- The callback of a `dataSource.transaction`. -/
abbrev LedgerProg := Prog LedgerRow LedgerStmt ApiError

structure Env where
  users : List Uuid
  currencies : List String
  categories : List Uuid
  instruments : List Instrument
  fxRates : List FxRate
  cache : FxRateCache
  /-- DRIFT, see toTransaction. -/
  drift : Bool
  /-- `new Date(text)`, `none` for an Invalid Date. -/
  newDate : String → Option Instant
  pgTimestamptzIn : String → Option Timestamptz
  numberText : Number → String

/-- A text parameter of type uuid; Postgres refuses one it cannot read. -/
def uuidParam (s : String) : LedgerProg Uuid :=
  match pgUuidIn s with
  | none => .raise (.db "22P02")
  | some u => .ret u

/-- A number parameter of type bigint. -/
def bigintParam (x : Number) : LedgerProg Int :=
  if x.den = 1 then
    if inBigint x.num then .ret x.num else .raise (.db "22003")
  else .raise (.db "22P02")

/-- Postgres takes no text with a NUL in it. -/
def hasNul (s : String) : Bool := s.toList.contains '\x00'

/-- The columns, CHECKs and foreign keys of `accounts`. -/
def accountConstraints (env : Env) (row : AccountRow) : Bool :=
  (decide (1 ≤ row.name.length ∧ row.name.length ≤ 120) && !hasNul row.name)
    && inBigint row.balanceCents
    && decide (row.userId ∈ env.users)
    && decide (row.currency ∈ env.currencies)

/-- The columns, CHECKs and foreign keys of `transactions`. The enumerations
are types here, so their CHECKs are met by construction. -/
def transactionConstraints (env : Env) (d : LedgerDb) (row : TransactionRow) :
    Bool :=
  row.description.all (fun s => decide (s.length ≤ 500) && !hasNul s)
    && row.unitPrice.all (fun p => decide (p.scaled > 0) && p.fits)
    && row.quantityMicro.all (fun q => decide (q > 0) && inBigint q)
    && decide (row.fxRate.scaled > 0) && row.fxRate.fits
    && decide (row.amountCents ≥ 0) && inBigint row.amountCents
    && (decide (row.currency = "UAH") == decide (row.fxRate = Numeric.one))
    && ((row.type == .buy || row.type == .sell) == row.instrumentId.isSome)
    && (d.get (.account row.accountId)).any (fun a => a.currency = row.currency)
    && row.instrumentId.all (fun i => env.instruments.any (·.id = i))
    && row.categoryId.all (fun c => c ∈ env.categories)
    && decide (row.currency ∈ env.currencies)

end InvestApi.Ref
