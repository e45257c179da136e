import InvestApi.Ref.LedgerSystem

/-!
# Order events

`src/orders/order-events.service.ts`: one process-wide sequence, a buffer of
the newest events and their synchronous fan-out; and the end of
`changeStatus`, which publishes when its transaction has committed a change.

The event is numbered where the call continues after its COMMIT, and nothing
orders the continuations of two calls: `resume` is one, of any call that has
ended and has not returned.
-/

namespace InvestApi.Ref

open InvestApi.Pg

variable {ι : Type}

structure OrderStatusEvent where
  id : Nat
  order_id : String
  status : TransactionStatus
  changed_at : String
  deriving DecidableEq, Repr

def BUFFER_SIZE : Nat := 1000

structure OrderEventsService where
  buffer : List OrderStatusEvent
  seq : Nat
  deriving DecidableEq, Repr

namespace OrderEventsService

/-- As the process starts. -/
def boot : OrderEventsService := ⟨[], 0⟩

/-- The service afterwards, and the event that `subject.next` hands on. -/
def publish (bus : OrderEventsService) (orderId : String)
    (status : TransactionStatus) (now : Instant) :
    OrderEventsService × OrderStatusEvent :=
  let event : OrderStatusEvent := ⟨bus.seq + 1, orderId, status, toISOString now⟩
  let buffer := bus.buffer ++ [event]
  (⟨if buffer.length > BUFFER_SIZE then buffer.drop 1 else buffer, bus.seq + 1⟩,
    event)

def since (bus : OrderEventsService) (orderId : String) (lastId : Nat) :
    List OrderStatusEvent :=
  bus.buffer.filter fun e => e.order_id == orderId && e.id > lastId

end OrderEventsService

/-- What `changeStatus` does with what its transaction returned. -/
def OrdersService.publishChanged (bus : OrderEventsService) (orderId : String)
    (status : TransactionStatus) (changed : Bool) (now : Instant) :
    OrderEventsService × Option OrderStatusEvent :=
  if changed then
    let (bus, event) := bus.publish orderId status now
    (bus, some event)
  else (bus, none)

/-- The database, the event service, the events in the order in which they
were emitted, each with the call it comes from, and who has returned. -/
structure EventWorld (ι : Type) where
  ledger : LedgerState ι
  bus : OrderEventsService
  emitted : List (ι × OrderStatusEvent)
  returned : List ι

namespace EventWorld

def boot (d : LedgerDb) : EventWorld ι where
  ledger := State.init d
  bus := .boot
  emitted := []
  returned := []

/-- Call `i`, whose transaction ended as `f`, goes on and returns. -/
def resume (calls : ι → LedgerCall) (s : EventWorld ι) (i : ι)
    (f : Finish ApiError LedgerReply) (now : Instant) : EventWorld ι :=
  match calls i, f with
  | .changeStatus orderId status _, .committed (.changed changed) =>
      let (bus, event) :=
        OrdersService.publishChanged s.bus orderId status changed now
      { s with
        bus := bus
        emitted := s.emitted ++ event.toList.map fun e => (i, e)
        returned := s.returned ++ [i] }
  | _, _ => { s with returned := s.returned ++ [i] }

end EventWorld

inductive EventTurn (ι : Type) where
  | ledger
  | resume (i : ι) (now : Instant)

inductive EventStep [DecidableEq ι] (env : Env) (calls : ι → LedgerCall) :
    EventWorld ι → EventTurn ι → EventWorld ι → Prop
  | ledger {s led}
      (h : Step (ledgerSystem env calls) (fun _ _ => True) s.ledger led) :
      EventStep env calls s .ledger { s with ledger := led }
  | resume {s i f now} (hf : (i, f) ∈ s.ledger.log) (hr : i ∉ s.returned) :
      EventStep env calls s (.resume i now) (s.resume calls i f now)

end InvestApi.Ref
