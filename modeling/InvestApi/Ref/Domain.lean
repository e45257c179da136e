import Mathlib.Data.Rat.Floor
import InvestApi.Codec.Double
import InvestApi.Codec.Utf16
import InvestApi.Ref.Time
import InvestApi.Ref.Uuid

/-!
# Domain types

The vocabulary of `src/domain`, `src/entities` and `src/auth/auth.types`:
the enumerations, the rows of the tables the services write, the objects
they hand to a client, and what they throw.

Amounts are integers and a JavaScript number is a rational. A double is one of 53
bits, and where the code rounds to one it is written out. The two texts a client
writes as it likes are JavaScript strings: what Postgres gets of one is UTF-8. A
column has characters.
-/

namespace InvestApi.Ref

open InvestApi.Codec

/-- A finite JavaScript number. -/
abbrev Number := Rat

def MAX_SAFE_INTEGER : Int := 2 ^ 53 - 1

/-- `Number(text)` of an integer's text. -/
def double (n : Int) : Int := roundInt 53 n

/-- The integer whose text a double is sent as. -/
def bigintText (n : Int) : Int := shortest 53 n

inductive TransactionType where
  | income | expense | transfer_in | transfer_out | buy | sell
  deriving DecidableEq, Repr

inductive TransactionStatus where
  | pending | posted | failed
  deriving DecidableEq, Repr

inductive AccountType where
  | cash | bank | brokerage | property
  deriving DecidableEq, Repr

inductive JobStatus where
  | pending | done
  deriving DecidableEq, Repr

inductive Role where
  | viewer | member
  deriving DecidableEq, Repr

/-- The spelling of a type in messages and columns. -/
def TransactionType.text : TransactionType → String
  | income => "income"
  | expense => "expense"
  | transfer_in => "transfer_in"
  | transfer_out => "transfer_out"
  | buy => "buy"
  | sell => "sell"

/-- Which way an amount moves the balance of its account. -/
def SIGN : TransactionType → Int
  | .income => 1
  | .transfer_in => 1
  | .sell => 1
  | .expense => -1
  | .transfer_out => -1
  | .buy => -1

/-- A `numeric(20,10)` value, in units of the tenth decimal. -/
structure Numeric where
  scaled : Int
  deriving DecidableEq, Repr

def Numeric.one : Numeric := ⟨10 ^ 10⟩

/-- The values a `numeric(20,10)` column can hold. -/
def Numeric.fits (n : Numeric) : Bool :=
  decide (-(10 ^ 20) < n.scaled ∧ n.scaled < 10 ^ 20)

/-- `x.toFixed(10)`: the nearest multiple of the tenth decimal, the larger of
two equally near ones. -/
def toFixed10 (x : Number) : Numeric := ⟨(x * 10 ^ 10 + 1 / 2).floor⟩

/-- The values a `bigint` column can hold. -/
def inBigint (n : Int) : Bool := decide (-(2 ^ 63) ≤ n ∧ n < 2 ^ 63)

/-! ## Rows -/

structure AccountRow where
  userId : Uuid
  currency : String
  name : String
  type : AccountType
  balanceCents : Int
  isArchived : Bool
  createdAt : Instant
  deriving DecidableEq, Repr

structure TransactionRow where
  accountId : Uuid
  instrumentId : Option Uuid
  categoryId : Option Uuid
  currency : String
  type : TransactionType
  status : TransactionStatus
  amountCents : Int
  fxRate : Numeric
  quantityMicro : Option Int
  unitPrice : Option Numeric
  bookedAt : Instant
  description : Option String
  createdAt : Instant
  deriving DecidableEq, Repr

/-- The payload `checkout` gives an `order_receipt` job. -/
structure JobPayload where
  order_id : Uuid
  account_id : String
  deriving DecidableEq, Repr

structure JobRow where
  type : String
  payload : JobPayload
  status : JobStatus
  processed : Nat
  workerId : Option String
  createdAt : Instant
  deriving DecidableEq, Repr

structure Instrument where
  id : Uuid
  symbol : String
  deriving DecidableEq, Repr

/-! ## Callers, wire objects, errors -/

/-- The verified claims of an access token. -/
structure AuthUser where
  id : Uuid
  role : Role
  jti : Uuid
  sid : Uuid
  exp : Int
  deriving DecidableEq, Repr

structure Account where
  id : Uuid
  name : JsString
  type : AccountType
  currency : String
  balance_cents : Int
  created_at : String
  deriving DecidableEq, Repr

structure OwnedAccount extends Account where
  user_id : Uuid
  deriving DecidableEq, Repr

structure Transaction where
  id : Uuid
  account_id : String
  type : TransactionType
  amount_cents : Int
  currency : String
  booked_at : String
  description : Option JsString
  instrument_symbol : Option String
  quantity_micro : Option Int
  created_at : String
  deriving DecidableEq, Repr

/-- A Transaction on the wire. -/
structure TransactionResponse where
  id : Uuid
  account_id : String
  type : TransactionType
  amount_cents : Option Int
  amountCents : Option Int
  currency : String
  created_at : String
  booked_at : String
  description : Option JsString
  quantity_micro : Option Int
  instrument_symbol : Option String
  deriving DecidableEq, Repr

/-- With `drift` the amount goes out under another name. -/
def toTransaction (transaction : Transaction) (drift : Bool) : TransactionResponse where
  id := transaction.id
  account_id := transaction.account_id
  type := transaction.type
  amount_cents := if drift then none else some transaction.amount_cents
  amountCents := if drift then some transaction.amount_cents else none
  currency := transaction.currency
  created_at := transaction.created_at
  booked_at := transaction.booked_at
  description := transaction.description
  quantity_micro := transaction.quantity_micro
  instrument_symbol := transaction.instrument_symbol

inductive CheckoutRejection where
  | insufficient_funds | account_not_found | no_fx_rate
  deriving DecidableEq, Repr

/-- What a service throws. -/
inductive ApiError where
  /-- ProblemException: HTTP status, code, detail. -/
  | problem (status : Nat) (code detail : String)
  | checkoutRejected (reason : CheckoutRejection)
  /-- A plain Error. -/
  | error (message : String)
  /-- An error Postgres answers a statement with. -/
  | db (sqlstate : String)
  deriving DecidableEq, Repr

end InvestApi.Ref
