import InvestApi.Lts.Run
import InvestApi.Ref.Domain

/-!
# Publishing with confirms

`src/broker/publisher.ts` on one confirm channel: calls of `publishEvent`, the
frames of the broker and the microtasks of the process as a state machine. The
'return' listener keeps one set of messageIds for the channel; a confirm runs the
callbacks of its messages in the order of their tags, and each settles the promise
its call awaits; the continuation of a call runs later, when no frame is being read.

`amqplib` is modelled as far as a call can see it: a confirm may be for several
messages, and a channel that closes fails what is unconfirmed. A `messageId` is a
uuid, so it is never the empty text the listener passes over.
-/

namespace InvestApi.Ref

/-- Where a call of `publishEvent` stands. -/
inductive PublishPc where
  | idle
  /-- Sent; its promise is pending. -/
  | unconfirmed
  /-- Its promise is resolved; its continuation is queued. -/
  | confirmed
  | resolved
  | rejected
  deriving DecidableEq, Repr

/-- The channel, with what has become of each message: `bounced` once its own return
has come in, `acked` once the broker has confirmed it. -/
structure ConfirmChannel (ι : Type) where
  isOpen : Bool
  pc : ι → PublishPc
  unconfirmed : List ι
  jobs : List ι
  returned : Uuid → Bool
  bounced : ι → Bool
  acked : ι → Bool

inductive PublishEvent (ι : Type) where
  | publish (c : ι)
  /-- basic.return of a call's message. -/
  | bounce (c : ι)
  /-- basic.ack and basic.nack, perhaps for all messages up to this one. -/
  | ack (c : ι) (multiple : Bool)
  | nack (c : ι) (multiple : Bool)
  /-- The next continuation. -/
  | resume (c : ι)
  | close
  deriving DecidableEq

namespace ConfirmChannel

variable {ι : Type} [DecidableEq ι]

def init : ConfirmChannel ι where
  isOpen := true
  pc := fun _ => .idle
  unconfirmed := []
  jobs := []
  returned := fun _ => false
  bounced := fun _ => false
  acked := fun _ => false

/-- The messages a confirm is for. -/
def settled (s : ConfirmChannel ι) (c : ι) (multiple : Bool) : List ι :=
  if multiple then s.unconfirmed.takeWhile (· ≠ c) ++ [c] else [c]

/-- The callbacks of `cs` have run. -/
def settle (s : ConfirmChannel ι) (cs : List ι) (pc : PublishPc) : ConfirmChannel ι :=
  { s with
    pc := fun d => if d ∈ cs then pc else s.pc d
    unconfirmed := s.unconfirmed.filter fun d => d ∉ cs }

/-- `publishEvent`, up to its await. A closed channel throws. -/
def publish (s : ConfirmChannel ι) (c : ι) : ConfirmChannel ι :=
  if s.isOpen then
    { s with
      pc := Function.update s.pc c .unconfirmed
      unconfirmed := s.unconfirmed ++ [c] }
  else { s with pc := Function.update s.pc c .rejected }

/-- The 'return' listener. -/
def bounce (eventId : ι → Uuid) (s : ConfirmChannel ι) (c : ι) : ConfirmChannel ι :=
  { s with
    returned := Function.update s.returned (eventId c) true
    bounced := Function.update s.bounced c true }

def ack (s : ConfirmChannel ι) (cs : List ι) : ConfirmChannel ι :=
  { s.settle cs .confirmed with
    jobs := s.jobs ++ cs
    acked := fun d => decide (d ∈ cs) || s.acked d }

/-- What `publishEvent` does after its await. -/
def resume (eventId : ι → Uuid) (s : ConfirmChannel ι) (c : ι) : ConfirmChannel ι :=
  { s with
    pc := Function.update s.pc c (if s.returned (eventId c) then .rejected else .resolved)
    jobs := s.jobs.tail
    returned := Function.update s.returned (eventId c) false }

def close (s : ConfirmChannel ι) : ConfirmChannel ι :=
  { s.settle s.unconfirmed .rejected with isOpen := false }

/-- What an event leads to; `none` where it cannot happen. -/
def next (eventId : ι → Uuid) (s : ConfirmChannel ι) :
    PublishEvent ι → Option (ConfirmChannel ι)
  | .publish c => if s.pc c = .idle then some (s.publish c) else none
  | .bounce c =>
      if c ∈ s.unconfirmed ∧ s.bounced c = false then some (s.bounce eventId c) else none
  | .ack c multiple =>
      if c ∈ s.unconfirmed then some (s.ack (s.settled c multiple)) else none
  | .nack c multiple =>
      if c ∈ s.unconfirmed then some (s.settle (s.settled c multiple) .rejected) else none
  | .resume c => if s.jobs.head? = some c then some (s.resume eventId c) else none
  | .close => if s.isOpen then some s.close else none

/-- The events in cases. -/
inductive Step (eventId : ι → Uuid) (s : ConfirmChannel ι) :
    PublishEvent ι → ConfirmChannel ι → Prop
  | publish {c} (hc : s.pc c = .idle) : Step eventId s (.publish c) (s.publish c)
  | bounce {c} (hc : c ∈ s.unconfirmed) (hnew : s.bounced c = false) :
      Step eventId s (.bounce c) (s.bounce eventId c)
  | ack {c multiple} (hc : c ∈ s.unconfirmed) :
      Step eventId s (.ack c multiple) (s.ack (s.settled c multiple))
  | nack {c multiple} (hc : c ∈ s.unconfirmed) :
      Step eventId s (.nack c multiple) (s.settle (s.settled c multiple) .rejected)
  | resume {c} (hc : s.jobs.head? = some c) : Step eventId s (.resume c) (s.resume eventId c)
  | close : Step eventId s .close s.close

theorem step_of_next {eventId : ι → Uuid} {s s' : ConfirmChannel ι} {e : PublishEvent ι}
    (h : s.next eventId e = some s') : Step eventId s e s' := by
  cases e with
  | publish c =>
      simp only [next] at h
      split at h
      · next hc =>
          obtain rfl := Option.some.inj h
          exact .publish hc
      · simp at h
  | bounce c =>
      simp only [next] at h
      split at h
      · next hc =>
          obtain rfl := Option.some.inj h
          exact .bounce hc.1 hc.2
      · simp at h
  | ack c multiple =>
      simp only [next] at h
      split at h
      · next hc =>
          obtain rfl := Option.some.inj h
          exact .ack hc
      · simp at h
  | nack c multiple =>
      simp only [next] at h
      split at h
      · next hc =>
          obtain rfl := Option.some.inj h
          exact .nack hc
      · simp at h
  | resume c =>
      simp only [next] at h
      split at h
      · next hc =>
          obtain rfl := Option.some.inj h
          exact .resume hc
      · simp at h
  | close =>
      simp only [next] at h
      split at h
      · obtain rfl := Option.some.inj h
        exact .close
      · simp at h

end ConfirmChannel

end InvestApi.Ref
