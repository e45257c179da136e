import InvestApi.Ref.Accounts

/-!
# Checkout

`src/concurrency/checkout.ts`: the guarded debit, the rate of the account's
currency, the order and its receipt job, in one transaction; and around it
the quantity check before and the publish callback after COMMIT.

The cost is a product of doubles and what Postgres gets is its text, which may
be neither the product of the two numbers nor the double itself.
-/

namespace InvestApi.Ref

open InvestApi.Pg InvestApi.Codec

structure CheckoutRequest where
  accountId : String
  instrumentId : String
  quantity : Number
  unitPriceCents : Number
  description : Option JsString
  deriving DecidableEq, Repr

structure CheckoutSuccess where
  orderId : Uuid
  jobId : Uuid
  balanceCents : Int
  costCents : Number
  currency : String
  deriving DecidableEq, Repr

/-- What the column defaults and `now()` of one transaction answer. -/
structure CheckoutDraw where
  orderId : Uuid
  jobId : Uuid
  now : Instant
  deriving DecidableEq, Repr

namespace Checkout

def debitRow (cost : Int) : (k : LedgerKey) → LedgerRow k → RowAct (LedgerRow k)
  | .account _, row =>
      if row.balanceCents ≥ cost then
        if inBigint (row.balanceCents - cost) then
          .put { row with balanceCents := row.balanceCents - cost }
        else .fail
      else .skip
  | .transaction _, _ => .skip
  | .job _, _ => .skip

def debitedRow : List (KeyedRow LedgerRow) → Option AccountRow
  | ⟨.account _, row⟩ :: _ => some row
  | _ => none

/-- UPDATE accounts … WHERE id = $1 AND balance_cents >= $2 RETURNING. -/
def debit (u : Uuid) (cost : Int) : LedgerProg (Option AccountRow) :=
  .update .debitAccount
    (fun d => d.only (.account u) fun row => decide (row.balanceCents ≥ cost))
    (debitRow cost) fun _ rows => .ret (debitedRow rows)

def debitAccount (accountId : String) (costCents : Number) :
    LedgerProg AccountRow := do
  let u ← uuidParam accountId
  let cost ← bigintParam costCents
  match ← debit u cost with
  | some row => return row
  | none =>
      let found ← .query fun d => (d.get (.account u)).isSome
      .raise (.checkoutRejected
        (if found then .insufficient_funds else .account_not_found))

def latestRate (env : Env) (currency : String) : Option FxRate :=
  firstBy FxRate.latestFirst (env.fxRates.filter fun r => r.currency = currency)

def resolveFxRate (env : Env) (currency : String) : LedgerProg Numeric := do
  if currency = "UAH" then
    return Numeric.one
  else
    match ← .query fun _ => latestRate env currency with
    | none => .raise (.checkoutRejected .no_fx_rate)
    | some row => return row.rate

/-- `unitPriceCents * quantity`. -/
def costCents (request : CheckoutRequest) : Number :=
  roundTo 53 (request.unitPriceCents * request.quantity)

/-- The number whose text the cost is sent as. -/
def sentCost (request : CheckoutRequest) : Number :=
  if (costCents request).den = 1 then bigintText (costCents request).num
  else costCents request

def orderRow (accountId instrumentId : Uuid) (currency : String)
    (cost : Int) (fxRate : Numeric) (quantityMicro : Int)
    (request : CheckoutRequest) (now : Instant) : TransactionRow where
  accountId := accountId
  instrumentId := some instrumentId
  categoryId := none
  currency := currency
  type := .buy
  status := .posted
  amountCents := cost
  fxRate := fxRate
  quantityMicro := some quantityMicro
  unitPrice := some (toFixed10 (roundTo 53 (request.unitPriceCents / 100)))
  bookedAt := now
  description := request.description.map (·.utf8)
  createdAt := now

/-- Of the texts a parameter is read from, that of `quantity * 1_000_000` is exact:
in a `bigint` it has at most thirteen digits before its zeros. -/
def insertOrder (env : Env) (request : CheckoutRequest) (costCents : Number)
    (currency : String) (fxRate : Numeric) (draw : CheckoutDraw) :
    LedgerProg Unit := do
  let accountId ← uuidParam request.accountId
  let instrumentId ← uuidParam request.instrumentId
  let cost ← bigintParam costCents
  let quantityMicro ← bigintParam (request.quantity * 1000000)
  let row := orderRow accountId instrumentId currency cost fxRate quantityMicro
    request draw.now
  .insert [⟨.transaction draw.orderId, row⟩]
    (fun d => transactionConstraints env d row) (.ret ())

def jobRow (request : CheckoutRequest) (draw : CheckoutDraw) : JobRow where
  type := "order_receipt"
  payload := ⟨draw.orderId, request.accountId⟩
  status := .pending
  processed := 0
  workerId := none
  createdAt := draw.now

def insertJob (request : CheckoutRequest) (draw : CheckoutDraw) :
    LedgerProg Unit :=
  .insert [⟨.job draw.jobId, jobRow request draw⟩] (fun _ => true) (.ret ())

/-- The callback of the one transaction. -/
def transaction (env : Env) (request : CheckoutRequest) (draw : CheckoutDraw) :
    LedgerProg CheckoutSuccess := do
  let debited ← debitAccount request.accountId (sentCost request)
  let fxRate ← resolveFxRate env debited.currency
  insertOrder env request (sentCost request) debited.currency fxRate draw
  insertJob request draw
  return {
    orderId := draw.orderId
    jobId := draw.jobId
    balanceCents := double debited.balanceCents
    costCents := costCents request
    currency := debited.currency }

/-- `Number.isInteger(quantity) && quantity > 0`. -/
def quantityOk (request : CheckoutRequest) : Bool :=
  decide (request.quantity.den = 1 ∧ request.quantity > 0)

def badQuantity (env : Env) (request : CheckoutRequest) : ApiError :=
  .error ("checkout: quantity must be a positive integer, got "
    ++ env.numberText request.quantity)

/-- Everything `checkout` asks of the database: a bad quantity throws before
the transaction would begin, so nothing is asked. -/
def body (env : Env) (request : CheckoutRequest) (draw : CheckoutDraw) :
    LedgerProg CheckoutSuccess :=
  if quantityOk request then transaction env request draw
  else .raise (badQuantity env request)

end Checkout

/-! ## Around the transaction -/

structure OrderPlacedEvent where
  eventId : Uuid
  type : String
  occurredAt : String
  orderId : Uuid
  accountId : String
  instrumentId : String
  quantity : Number
  costCents : Number
  currency : String
  deriving DecidableEq, Repr

/-- What randomUUID and the clock answer when the event is made. -/
structure EventDraw where
  eventId : Uuid
  now : Instant

def orderPlaced (event : EventDraw) (request : CheckoutRequest)
    (result : CheckoutSuccess) : OrderPlacedEvent where
  eventId := event.eventId
  type := "order.placed"
  occurredAt := toISOString event.now
  orderId := result.orderId
  accountId := request.accountId
  instrumentId := request.instrumentId
  quantity := request.quantity
  costCents := result.costCents
  currency := result.currency

/-- The callback: its promise resolves, or rejects with an error. -/
abbrev Publish := OrderPlacedEvent → Except String Unit

/-- What can go wrong between the pool and Postgres. -/
inductive Trouble where
  | none
  /-- The n-th statement fails, COMMIT included. -/
  | fault (n : Nat)
  /-- COMMIT is done and its answer never arrives. -/
  | commitAnswerLost
  deriving DecidableEq, Repr

def Trouble.statement : Trouble → Option Nat
  | fault n => some n
  | _ => Option.none

inductive CheckoutOutcome where
  | ok (result : CheckoutSuccess)
  | failure (reason : CheckoutRejection)
  | threw (error : ApiError)
  deriving DecidableEq, Repr

namespace Checkout

/-- The `await publish?.(…)` and the return after it. -/
def announce (request : CheckoutRequest) (event : EventDraw)
    (publish : Option Publish) (result : CheckoutSuccess) : CheckoutOutcome :=
  match publish with
  | none => .ok result
  | some send =>
      match send (orderPlaced event request result) with
      | .ok () => .ok result
      | .error message => .threw (.error message)

/-- `checkout`: what it answers or throws, and the tables after it. -/
def checkout (env : Env) (request : CheckoutRequest) (draw : CheckoutDraw)
    (event : EventDraw) (publish : Option Publish) (trouble : Trouble)
    (d : LedgerDb) : CheckoutOutcome × LedgerDb :=
  match (body env request draw).exec d trouble.statement (Session.init []) with
  | (.committed result, s) =>
      if trouble = .commitAnswerLost then
        (.threw (.error "Connection terminated unexpectedly"), s.view d)
      else (announce request event publish result, s.view d)
  | (.raised (.checkoutRejected reason), _) => (.failure reason, d)
  | (.raised error, _) => (.threw error, d)
  | (.aborted, _) => (.threw (.error "the transaction was rolled back"), d)

end Checkout

end InvestApi.Ref
