import InvestApi.Lts.Run
import InvestApi.Ref.OrderEvents

/-!
# The stream of one order

`GET /orders/{order_id}/events` of `src/orders/orders.controller.ts`: a replay
of the buffer after `Last-Event-ID`, then the live events, with no other turn
of the process in between. One client follows one order; what it sends back is
the text of the id of the last frame it received. A frame that is on the wire
when the connection goes is lost.
-/

namespace InvestApi.Ref

/-- A `text/event-stream` message by its fields; `data` is the JSON of the
event. -/
structure SseFrame where
  id : String
  event : String
  data : OrderStatusEvent
  deriving DecidableEq, Repr

/-- `Number(text)` of decimal digits, all that an id is written in. -/
def decimalNumber (text : String) : Option Nat :=
  if text.toList ≠ [] ∧ text.toList.all Char.isDigit
  then some (Nat.ofDigitChars 10 text.toList 0)
  else none

namespace OrdersController

def frame (event : OrderStatusEvent) : SseFrame where
  id := toString event.id
  event := "order.status"
  data := event

/-- What `events` writes before it subscribes. -/
def replay (bus : OrderEventsService) (orderId : String)
    (lastEventId : Option String) : List SseFrame :=
  (bus.since orderId ((lastEventId.bind decimalNumber).getD 0)).map frame

/-- What its subscription writes when `event` comes. -/
def forward (orderId : String) (event : OrderStatusEvent) : List SseFrame :=
  if event.order_id = orderId then [frame event] else []

end OrdersController

structure StreamWorld where
  bus : OrderEventsService
  published : List OrderStatusEvent
  /-- The frames under way on the open connection. -/
  wire : Option (List SseFrame)
  received : List SseFrame
  /-- The sequence at the first connect. -/
  joined : Option Nat
  deriving DecidableEq, Repr

namespace StreamWorld

def boot : StreamWorld where
  bus := .boot
  published := []
  wire := none
  received := []
  joined := none

def publish (s : StreamWorld) (orderId o : String) (status : TransactionStatus)
    (now : Instant) : StreamWorld :=
  let (bus, event) := s.bus.publish o status now
  { s with
    bus := bus
    published := s.published ++ [event]
    wire := s.wire.map (· ++ OrdersController.forward orderId event) }

def lastEventId (s : StreamWorld) : Option String :=
  s.received.getLast?.map (·.id)

def connect (s : StreamWorld) (orderId : String) : StreamWorld :=
  { s with
    wire := some (OrdersController.replay s.bus orderId s.lastEventId)
    joined := some (s.joined.getD s.bus.seq) }

end StreamWorld

inductive StreamTurn where
  | publish (o : String) (status : TransactionStatus) (now : Instant)
  | connect
  | receive
  | disconnect

inductive StreamStep (orderId : String) :
    StreamWorld → StreamTurn → StreamWorld → Prop
  | publish {s o status now} :
      StreamStep orderId s (.publish o status now) (s.publish orderId o status now)
  | connect {s} (h : s.wire = none) :
      StreamStep orderId s .connect (s.connect orderId)
  | receive {s f rest} (h : s.wire = some (f :: rest)) :
      StreamStep orderId s .receive
        { s with wire := some rest, received := s.received ++ [f] }
  | disconnect {s frames} (h : s.wire = some frames) :
      StreamStep orderId s .disconnect { s with wire := none }

end InvestApi.Ref
