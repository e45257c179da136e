import InvestApi.Ref.LedgerSystem

/-!
# `demo:race`

`src/demo-race.ts`: checkouts sent off at once at one account whose balance covers
some of them. `reset` makes the script repeatable; once every promise has resolved
it counts what the tables hold and grades itself. The script's constants are here,
its functions take the number of units and the price as parameters, and multiply
and subtract as the script does, in doubles.
-/

namespace InvestApi.Ref.DemoRace

open InvestApi.Pg InvestApi.Codec

def ATTEMPTS : Nat := 50

def UNITS : Nat := 10

def PRICE_CENTS : Int := 12000

def START_BALANCE_CENTS (units : Nat) (price : Int) : Int := double (units * price)

/-- `00000002-0000-4000-8000-000000000002` -/
def ACCOUNT_ID : Uuid := 0x00000002000040008000000000000002

/-- `00000003-0000-4000-8000-000000000001` -/
def INSTRUMENT_ID : Uuid := 0x00000003000040008000000000000001

def MARKER : String := "hw14 demo:race"

/-- What each of the calls is given. -/
def request (price : Int) : CheckoutRequest :=
  ⟨ACCOUNT_ID.text, INSTRUMENT_ID.text, 1, price, some (.ofString MARKER)⟩

/-! ## The rows the script asks about -/

/-- `description = MARKER` -/
def marked : (k : LedgerKey) → LedgerRow k → Bool
  | .transaction _, row => decide (row.description = some MARKER)
  | .account _, _ => false
  | .job _, _ => false

/-- `type = 'order_receipt'` -/
def receipt : (k : LedgerKey) → LedgerRow k → Bool
  | .job _, row => decide (row.type = "order_receipt")
  | .account _, _ => false
  | .transaction _, _ => false

/-- `balance_cents < 0` -/
def negative : (k : LedgerKey) → LedgerRow k → Bool
  | .account _, row => decide (row.balanceCents < 0)
  | .transaction _, _ => false
  | .job _, _ => false

/-- SELECT count(*) … WHERE. -/
def count (p : (k : LedgerKey) → LedgerRow k → Bool) (d : LedgerDb) : Int :=
  d.sum fun k row => if p k row then 1 else 0

/-- DELETE … WHERE. -/
def delete (p : (k : LedgerKey) → LedgerRow k → Bool) (d : LedgerDb) : LedgerDb :=
  d.writeAll ((d.keys.filter fun k => (d.get k).any (p k)).map fun k => ⟨k, none⟩)

def reset (units : Nat) (price : Int) (d : LedgerDb) : Except ApiError LedgerDb :=
  match d.get (.account ACCOUNT_ID) with
  | none =>
      .error (.error
        ("Account " ++ ACCOUNT_ID.text ++ " is missing — run \"npm run seed\" first."))
  | some row =>
      let start := bigintText (START_BALANCE_CENTS units price)
      if inBigint start then
        .ok ((delete receipt (delete marked d)).set (.account ACCOUNT_ID)
          (some { row with balanceCents := start }))
      else .error (.db "22003")

/-! ## The calls and the grading -/

/-- What a promise resolves to; `none` where it rejects. -/
def resolved : Finish ApiError LedgerReply → Option (Except CheckoutRejection CheckoutSuccess)
  | .committed (.checkout success) => some (.ok success)
  | .raised (.checkoutRejected reason) => some (.error reason)
  | _ => none

structure Tally where
  succeeded : Nat
  finalBalance : Int
  negativeRows : Int
  orders : Int
  jobs : Int

/-- Of the results and the tables. There is nothing to read the balance of
where the account is gone. -/
def tally (results : List (Except CheckoutRejection CheckoutSuccess)) (d : LedgerDb) :
    Option Tally :=
  (d.get (.account ACCOUNT_ID)).map fun row =>
    ⟨(results.filter Except.isOk).length, double row.balanceCents, count negative d,
      count marked d, count receipt d⟩

def problems (units : Nat) (price : Int) (t : Tally) : List String :=
  let debitedTotal := double (START_BALANCE_CENTS units price - t.finalBalance)
  let expectedTotal := double (t.succeeded * price)
  (if t.succeeded ≠ units then
    ["expected exactly " ++ toString units ++ " successful checkouts, got "
      ++ toString t.succeeded] else [])
  ++ (if t.finalBalance ≠ 0 then
    ["expected final balance 0 (stock fully drawn down), got "
      ++ toString (bigintText t.finalBalance)] else [])
  ++ (if t.negativeRows ≠ 0 then
    ["oversell: " ++ toString t.negativeRows ++ " row(s) with a negative balance"] else [])
  ++ (if t.orders ≠ t.succeeded then
    ["orphan orders: " ++ toString t.orders ++ " order rows for "
      ++ toString t.succeeded ++ " successful checkouts"] else [])
  ++ (if t.jobs ≠ t.succeeded then
    ["queue drift: " ++ toString t.jobs ++ " jobs for "
      ++ toString t.succeeded ++ " successful checkouts"] else [])
  ++ (if debitedTotal ≠ expectedTotal then
    ["arithmetic: debited " ++ toString (bigintText debitedTotal) ++ ", expected "
      ++ toString (bigintText expectedTotal)] else [])

end InvestApi.Ref.DemoRace
