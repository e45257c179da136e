import InvestApi.Amqp.Queue
import InvestApi.Lts.Run
import InvestApi.Ref.OrderPlaced

/-!
# The receipts consumer

`src/order-receipts-consumer.ts` with the queue of `src/broker/topology.ts` and
the table `order_receipts`. Consumers are processes: each has a connection, the
deliveries it is handling, and answers on their way to the broker. The INSERT
of a delivery is on its own way to Postgres, so that it may still run when the
process that sent it is gone or has given up on it.

A process dies at any moment; the broker notices at some later moment and puts
back what was not settled. Whether a lost connection counts towards the
delivery limit is left open.
-/

namespace InvestApi.Ref

open InvestApi.Amqp

variable {ι : Type}

def PREFETCH : Nat := 10

def DELIVERY_LIMIT : Nat := 5

/-- A routed message: two copies of an event are two messages. -/
structure EventMessage where
  number : Nat
  content : List Nat
  deriving DecidableEq, Repr

structure ReceiptRow where
  order_id : Uuid
  event_id : Uuid
  deriving DecidableEq, Repr

/-- `order_receipts`, and the ids of `transactions` its foreign key refers to. -/
structure ReceiptsDb where
  orders : List Uuid
  receipts : List ReceiptRow
  deriving DecidableEq, Repr

/-- `issueReceipt`: INSERT … ON CONFLICT DO NOTHING, and whether it answers a
row. A conflict on either key makes it do nothing. -/
def issueReceipt (db : ReceiptsDb) (event : OrderPlaced) :
    Except ApiError (Bool × ReceiptsDb) :=
  match pgUuidIn event.data.orderId, pgUuidIn event.eventId with
  | some o, some e =>
      if db.receipts.any (fun row => row.order_id = o || row.event_id = e) then
        .ok (false, db)
      else if o ∈ db.orders then
        .ok (true, { db with receipts := db.receipts ++ [⟨o, e⟩] })
      else .error (.db "23503")
  | _, _ => .error (.db "22P02")

/-- Where `handle` is with a delivery. -/
inductive HandlePc where
  | delivered
  | issuing
  | issued (applied : Bool)
  | failed
  deriving DecidableEq, Repr

structure Handler (ι : Type) where
  consumer : ι
  message : EventMessage
  pc : HandlePc

/-- `ch.ack` or `ch.reject` on its way. -/
structure AnswerFrame (ι : Type) where
  consumer : ι
  delivery : Nat
  answer : Answer

structure ReceiptsWorld (ι : Type) where
  queue : Queue EventMessage ι
  routed : List EventMessage
  db : ReceiptsDb
  consuming : ι → Bool
  handlers : Nat → Option (Handler ι)
  /-- The INSERTs on their way, by the delivery they are for. -/
  inserts : Nat → Option OrderPlaced
  frames : List (AnswerFrame ι)

namespace ReceiptsWorld

variable (s : ReceiptsWorld ι)

def boot (db : ReceiptsDb) : ReceiptsWorld ι where
  queue := .empty
  routed := []
  db := db
  consuming := fun _ => false
  handlers := fun _ => none
  inserts := fun _ => none
  frames := []

def publish (content : List Nat) : ReceiptsWorld ι :=
  let m : EventMessage := ⟨s.routed.length, content⟩
  { s with queue := s.queue.publish m, routed := s.routed ++ [m] }

/-- A new row of `transactions`. -/
def placeOrder (o : Uuid) : ReceiptsWorld ι :=
  { s with db := { s.db with orders := s.db.orders ++ [o] } }

def start [DecidableEq ι] (c : ι) : ReceiptsWorld ι :=
  { s with consuming := Function.update s.consuming c true }

/-- The broker has handed delivery `d` to its consumer. -/
def deliver (d : Delivery EventMessage ι) (queue : Queue EventMessage ι) :
    ReceiptsWorld ι :=
  { s with
    queue := queue
    handlers := Function.update s.handlers d.number
      (some ⟨d.consumer, d.message, .delivered⟩) }

def setPc (n : Nat) (h : Handler ι) (pc : HandlePc) : ReceiptsWorld ι :=
  { s with handlers := Function.update s.handlers n (some { h with pc := pc }) }

/-- The handler of delivery `n` sends its answer and is done. -/
def respond (n : Nat) (h : Handler ι) (answer : Answer) : ReceiptsWorld ι :=
  { s with
    handlers := Function.update s.handlers n none
    frames := s.frames ++ [⟨h.consumer, n, answer⟩] }

/-- `parseOrderPlaced`, then the INSERT or the reject of a poison message. -/
def read (zod : Zod) (n : Nat) (h : Handler ι) : ReceiptsWorld ι :=
  match zod.parseOrderPlaced h.message.content with
  | none => s.respond n h (.reject false)
  | some event =>
      { s.setPc n h .issuing with inserts := Function.update s.inserts n (some event) }

/-- The handler that waits for the INSERT of delivery `n` learns how it went. -/
def resolve (n : Nat) (pc : HandlePc) : ReceiptsWorld ι :=
  match s.handlers n with
  | some h => if h.pc = .issuing then s.setPc n h pc else s
  | none => s

/-- Postgres runs the INSERT of delivery `n`. -/
def insert (n : Nat) (event : OrderPlaced) : ReceiptsWorld ι :=
  let s := { s with inserts := Function.update s.inserts n none }
  match issueReceipt s.db event with
  | .ok (applied, db) => { s.resolve n (.issued applied) with db := db }
  | .error _ => s.resolve n .failed

/-- The INSERT of delivery `n` comes to nothing. -/
def lose (n : Nat) : ReceiptsWorld ι :=
  { s with inserts := Function.update s.inserts n none }.resolve n .failed

/-- The process of `c` is gone, with whatever it was handling. -/
def crash [DecidableEq ι] (c : ι) : ReceiptsWorld ι :=
  { s with
    consuming := Function.update s.consuming c false
    handlers := fun n => (s.handlers n).filter fun h => h.consumer ≠ c }

/-- After the effect: the fault injection, or the ack. -/
def acknowledge [DecidableEq ι] (crashAfterEffect : ι → Bool) (n : Nat)
    (h : Handler ι) : ReceiptsWorld ι :=
  if crashAfterEffect h.consumer then s.crash h.consumer else s.respond n h .ack

/-- The broker takes the connection of `c` for lost: what is on its way is
gone, what is not settled is put back. -/
def close [DecidableEq ι] (c : ι) (counted : Bool) : ReceiptsWorld ι :=
  { s with
    queue := s.queue.close DELIVERY_LIMIT counted c
    consuming := Function.update s.consuming c false
    frames := s.frames.filter fun f => f.consumer ≠ c }

end ReceiptsWorld

inductive ReceiptsTurn (ι : Type) where
  | publish (content : List Nat)
  | placeOrder (o : Uuid)
  | start (c : ι)
  | deliver (c : ι) (i : Nat)
  | read (n : Nat)
  | insert (n : Nat)
  | lose (n : Nat)
  /-- The handler gives up on an INSERT that may still run. -/
  | giveUp (n : Nat)
  | acknowledge (n : Nat)
  | putBack (n : Nat)
  | arrive (i : Nat)
  | crash (c : ι)
  | close (c : ι) (counted : Bool)

inductive ReceiptsStep [DecidableEq ι] (zod : Zod) (crashAfterEffect : ι → Bool) :
    ReceiptsWorld ι → ReceiptsTurn ι → ReceiptsWorld ι → Prop
  | publish {s content} :
      ReceiptsStep zod crashAfterEffect s (.publish content) (s.publish content)
  | placeOrder {s o} :
      ReceiptsStep zod crashAfterEffect s (.placeOrder o) (s.placeOrder o)
  | start {s c} (hc : s.consuming c = false) :
      ReceiptsStep zod crashAfterEffect s (.start c) (s.start c)
  | deliver {s c i d queue} (hc : s.consuming c = true)
      (hfew : (s.queue.unacked.filter fun d => d.consumer = c).length < PREFETCH)
      (hd : s.queue.deliver c i = some (d, queue)) :
      ReceiptsStep zod crashAfterEffect s (.deliver c i) (s.deliver d queue)
  | read {s n h} (hh : s.handlers n = some h) (hpc : h.pc = .delivered) :
      ReceiptsStep zod crashAfterEffect s (.read n) (s.read zod n h)
  | insert {s n event} (he : s.inserts n = some event) :
      ReceiptsStep zod crashAfterEffect s (.insert n) (s.insert n event)
  | lose {s n event} (he : s.inserts n = some event) :
      ReceiptsStep zod crashAfterEffect s (.lose n) (s.lose n)
  | giveUp {s n h} (hh : s.handlers n = some h) (hpc : h.pc = .issuing) :
      ReceiptsStep zod crashAfterEffect s (.giveUp n) (s.setPc n h .failed)
  | acknowledge {s n h applied} (hh : s.handlers n = some h)
      (hpc : h.pc = .issued applied) :
      ReceiptsStep zod crashAfterEffect s (.acknowledge n)
        (s.acknowledge crashAfterEffect n h)
  | putBack {s n h} (hh : s.handlers n = some h) (hpc : h.pc = .failed) :
      ReceiptsStep zod crashAfterEffect s (.putBack n) (s.respond n h (.reject true))
  | arrive {s i f} (hf : s.frames[i]? = some f)
      (hfirst : ∀ g ∈ s.frames.take i, g.consumer ≠ f.consumer) :
      ReceiptsStep zod crashAfterEffect s (.arrive i)
        { s with
          queue := s.queue.answer DELIVERY_LIMIT f.delivery f.answer
          frames := s.frames.eraseIdx i }
  | crash {s c} : ReceiptsStep zod crashAfterEffect s (.crash c) (s.crash c)
  | close {s c counted} :
      ReceiptsStep zod crashAfterEffect s (.close c counted) (s.close c counted)

end InvestApi.Ref
