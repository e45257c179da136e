import InvestApi.Codec.Plain
import InvestApi.Ref.Checkout
import InvestApi.Ref.FxSync
import InvestApi.Ref.Pagination

/-!
# The order.placed contract

`src/broker/order-placed.event.ts`: the schema a consumer holds a message's
body to, and the body that `src/broker/publisher.ts` sends. What zod's formats
accept of a text is a parameter.
-/

namespace InvestApi.Ref

open InvestApi.Codec

def ORDER_PLACED : String := "order.placed"

structure OrderPlacedData where
  orderId : String
  accountId : String
  instrumentId : String
  quantity : Number
  costCents : Number
  currency : String
  deriving DecidableEq, Repr

/-- `OrderPlacedEvent` as the JavaScript object. -/
structure OrderPlaced where
  eventId : String
  type : String
  occurredAt : String
  data : OrderPlacedData
  deriving DecidableEq, Repr

/-- The object `orderPlaced` makes. -/
def OrderPlacedEvent.object (event : OrderPlacedEvent) : OrderPlaced where
  eventId := event.eventId.text
  type := event.type
  occurredAt := event.occurredAt
  data :=
    { orderId := event.orderId.text
      accountId := event.accountId
      instrumentId := event.instrumentId
      quantity := event.quantity
      costCents := event.costCents
      currency := event.currency }

/-- `z.uuid()` and `z.iso.datetime()`. -/
structure Zod where
  uuid : String → Bool
  datetime : String → Bool

/-- `.length` of a string: its UTF-16 code units. -/
def jsLength (s : String) : Nat := (s.toList.flatMap charUnits).length

/-- A property that is a number, which `JSON.parse` reads as a double. -/
def numberProp (name : String) (props : List (JsString × Json)) : Option Number :=
  match props.reverse.lookup (.ofString name) with
  | some (.number x) => some (roundTo 53 x)
  | _ => none

/-- The properties of a property that is an object. -/
def objectProp (name : String) (props : List (JsString × Json)) :
    Option (List (JsString × Json)) :=
  match props.reverse.lookup (.ofString name) with
  | some (.object props) => some props
  | _ => none

namespace Zod

variable (zod : Zod)

def uuidProp (name : String) (props : List (JsString × Json)) : Option String :=
  (stringProp name props).filter zod.uuid

def orderPlacedData (props : List (JsString × Json)) : Option OrderPlacedData := do
  let orderId ← zod.uuidProp "orderId" props
  let accountId ← zod.uuidProp "accountId" props
  let instrumentId ← zod.uuidProp "instrumentId" props
  let quantity ← (numberProp "quantity" props).filter fun x => isSafeInt x && decide (x > 0)
  let costCents ← (numberProp "costCents" props).filter fun x =>
    isSafeInt x && decide (x ≥ 0)
  let currency ← (stringProp "currency" props).filter fun s => decide (jsLength s = 3)
  return { orderId, accountId, instrumentId, quantity, costCents, currency }

/-- `orderPlacedSchema.safeParse`, `none` where it does not succeed. -/
def orderPlacedSchema : Json → Option OrderPlaced
  | .object props => do
      let eventId ← zod.uuidProp "eventId" props
      let type ← (stringProp "type" props).filter fun s => decide (s = ORDER_PLACED)
      let occurredAt ← (stringProp "occurredAt" props).filter zod.datetime
      let data ← objectProp "data" props
      let data ← zod.orderPlacedData data
      return { eventId, type, occurredAt, data }
  | _ => none

/-- `parseOrderPlaced`: a body is its bytes. -/
def parseOrderPlaced (body : List Nat) : Option OrderPlaced := do
  let v ← parse (utf8Decode none body)
  zod.orderPlacedSchema v

end Zod

/-! ## Sending -/

/-- What `JSON.stringify` is given. The two numbers of an order are whole. -/
def OrderPlaced.message (event : OrderPlaced) : Plain :=
  .object [
    ("eventId", .string event.eventId),
    ("type", .string event.type),
    ("occurredAt", .string event.occurredAt),
    ("data", .object [
      ("orderId", .string event.data.orderId),
      ("accountId", .string event.data.accountId),
      ("instrumentId", .string event.data.instrumentId),
      ("quantity", .whole (bigintText event.data.quantity.num)),
      ("costCents", .whole (bigintText event.data.costCents.num)),
      ("currency", .string event.data.currency)])]

/-- The content of the message that `publishEvent` hands to the channel. -/
def OrderPlaced.content (event : OrderPlaced) : List Nat :=
  event.message.text.flatMap utf8Encode

end InvestApi.Ref
