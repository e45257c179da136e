import Mathlib.Logic.Relation
import InvestApi.Ref.Domain

/-!
# The idempotency interceptor

`src/shared/idempotency.interceptor.ts`: the store of one process, what
`intercept` does when a request arrives and what its 'finish' callback does,
and the requests of a process as a state machine over the events that drive
them. The hash of the body is a parameter, and so are the types of the bodies.

A handler may go on after its client has gone, so an ended response and a
handler that commits are independent of each other.
-/

namespace InvestApi.Ref

def TTL_MS : Int := 24 * 60 * 60 * 1000

def CREATED : Nat := 201

section Store

variable {B R : Type}

/-- `captured` starts out undefined, so the body may be absent. -/
inductive IdempotencyRecord (R : Type) where
  | inFlight (fingerprint : String) (expiresAt : Instant)
  | done (fingerprint : String) (body : Option R) (expiresAt : Instant)
  deriving DecidableEq, Repr

namespace IdempotencyRecord

def fingerprint : IdempotencyRecord R → String
  | inFlight fp _ => fp
  | done fp _ _ => fp

def expiresAt : IdempotencyRecord R → Instant
  | inFlight _ t => t
  | done _ _ t => t

end IdempotencyRecord

/-- `new Map<string, IdempotencyRecord>()`. -/
abbrev IdempotencyStore (R : Type) := String → Option (IdempotencyRecord R)

/-- What the interceptor reads of a request; `rawKey` is the header if it is a
string. -/
structure IdempotencyRequest (B : Type) where
  method : String
  rawKey : Option String
  user : Option Uuid
  body : B

def recordKey (user : Uuid) (rawKey : String) : String :=
  user.text ++ ":" ++ rawKey

/-- The gate: the store's key for a request the interceptor acts on. -/
def IdempotencyRequest.key (req : IdempotencyRequest B) : Option String :=
  match req.rawKey, req.user with
  | some rawKey, some user =>
      if req.method ≠ "POST" ∨ rawKey.length = 0 then none
      else some (recordKey user rawKey)
  | _, _ => none

/-- What becomes of an arriving request that is not refused. -/
inductive Admission (R : Type) where
  /-- The gate lets it pass to its handler. -/
  | bypass
  /-- Answered from the store, with Idempotency-Replay. -/
  | replay (body : Option R)
  /-- To its handler, with a 'finish' callback for the key. -/
  | run (key fingerprint : String)
  deriving DecidableEq, Repr

def keyReuse : ApiError :=
  .problem 422 "idempotency-key-reuse"
    ("This Idempotency-Key was already used with a different request body"
      ++ " — one key belongs to one operation")

def keyInFlight : ApiError :=
  .problem 409 "idempotency-in-flight"
    "A request with this Idempotency-Key is still in flight — retry in a moment"

/-- `store.get`, an expired record dropped. -/
def getRecord (store : IdempotencyStore R) (key : String) (now : Instant) :
    IdempotencyStore R × Option (IdempotencyRecord R) :=
  match store key with
  | none => (store, none)
  | some rec =>
      if rec.expiresAt ≤ now then (Function.update store key none, none)
      else (store, some rec)

/-- `intercept`, up to `next.handle()`. `now` and `now'` are its two readings of
the clock. -/
def intercept (fingerprint : B → String) (store : IdempotencyStore R)
    (req : IdempotencyRequest B) (now now' : Instant) :
    IdempotencyStore R × Except ApiError (Admission R) :=
  match req.key with
  | none => (store, .ok .bypass)
  | some key =>
      let fp := fingerprint req.body
      match getRecord store key now with
      | (store, none) =>
          (Function.update store key (some (.inFlight fp (now' + TTL_MS))),
            .ok (.run key fp))
      | (store, some rec) =>
          if rec.fingerprint ≠ fp then (store, .error keyReuse)
          else
            match rec with
            | .inFlight _ _ => (store, .error keyInFlight)
            | .done _ body _ => (store, .ok (.replay body))

/-- The 'finish' callback. -/
def onFinish (store : IdempotencyStore R) (key fp : String) (captured : Option R)
    (statusCode : Nat) (now : Instant) : IdempotencyStore R :=
  if statusCode = CREATED then
    Function.update store key (some (.done fp captured (now + TTL_MS)))
  else Function.update store key none

end Store

/-! ## The requests of one process -/

/-- How a response ended: sent in full, or cut off by the client. -/
inductive Ending where
  | finish (statusCode : Nat)
  | close
  deriving DecidableEq, Repr

/-- A request that has arrived; `interceptedAt` is the clock at the end of
`intercept`. -/
structure Exchange (R : Type) where
  arrivedAt : Instant
  interceptedAt : Instant
  answer : Except ApiError (Admission R)
  captured : Option R
  committed : Bool
  ended : Option Ending

/-- Its handler has been called. -/
def Exchange.handled {R : Type} (x : Exchange R) : Bool :=
  match x.answer with
  | .ok .bypass => true
  | .ok (.run _ _) => true
  | _ => false

structure IdempotencyState (ι R : Type) where
  store : IdempotencyStore R
  clock : Instant
  exchange : ι → Option (Exchange R)

inductive IdempotencyEvent (ι R : Type) where
  /-- `intercept` runs; the clock reads `now'` at its end. -/
  | arrive (i : ι) (now' : Instant)
  /-- The handler's transaction commits. -/
  | commit (i : ι)
  /-- The handler's value reaches `tap`. -/
  | emit (i : ι) (body : R)
  | finish (i : ι) (statusCode : Nat)
  /-- The client has gone before 'finish'. -/
  | close (i : ι)
  | advance (now : Instant)

namespace IdempotencyState

variable {ι B R : Type} [DecidableEq ι]

def init (clock : Instant) : IdempotencyState ι R where
  store := fun _ => none
  clock := clock
  exchange := fun _ => none

def setExchange (s : IdempotencyState ι R) (i : ι) (x : Exchange R) :
    IdempotencyState ι R :=
  { s with exchange := Function.update s.exchange i (some x) }

def arrive (fingerprint : B → String) (req : IdempotencyRequest B)
    (s : IdempotencyState ι R) (i : ι) (now' : Instant) : IdempotencyState ι R where
  store := (intercept fingerprint s.store req s.clock now').1
  clock := now'
  exchange := Function.update s.exchange i (some {
    arrivedAt := s.clock
    interceptedAt := now'
    answer := (intercept fingerprint s.store req s.clock now').2
    captured := none
    committed := false
    ended := none })

def finish (s : IdempotencyState ι R) (i : ι) (x : Exchange R) (statusCode : Nat) :
    IdempotencyState ι R :=
  { s with
    store :=
      match x.answer with
      | .ok (.run key fp) => onFinish s.store key fp x.captured statusCode s.clock
      | _ => s.store
    exchange := Function.update s.exchange i
      (some { x with ended := some (.finish statusCode) }) }

end IdempotencyState

section System

variable {ι B R : Type} [DecidableEq ι]

/-- What an event leads to; `none` where it cannot happen. -/
def IdempotencyState.next (fingerprint : B → String) (req : ι → IdempotencyRequest B)
    (s : IdempotencyState ι R) : IdempotencyEvent ι R → Option (IdempotencyState ι R)
  | .arrive i now' =>
      if (s.exchange i).isNone ∧ s.clock ≤ now' then
        some (s.arrive fingerprint (req i) i now')
      else none
  | .commit i =>
      match s.exchange i with
      | none => none
      | some x =>
          if x.handled then some (s.setExchange i { x with committed := true })
          else none
  | .emit i body =>
      match s.exchange i with
      | none => none
      | some x =>
          if x.handled then some (s.setExchange i { x with captured := some body })
          else none
  | .finish i statusCode =>
      match s.exchange i with
      | none => none
      | some x => if x.ended.isNone then some (s.finish i x statusCode) else none
  | .close i =>
      match s.exchange i with
      | none => none
      | some x =>
          if x.ended.isNone then some (s.setExchange i { x with ended := some .close })
          else none
  | .advance now => if s.clock ≤ now then some { s with clock := now } else none

/-- The events in cases: what each needs and what it does. -/
inductive IdempotencyStep (fingerprint : B → String) (req : ι → IdempotencyRequest B)
    (s : IdempotencyState ι R) : IdempotencyEvent ι R → IdempotencyState ι R → Prop
  | arrive {i now'} (hnew : s.exchange i = none) (ht : s.clock ≤ now') :
      IdempotencyStep fingerprint req s (.arrive i now')
        (s.arrive fingerprint (req i) i now')
  | commit {i x} (hx : s.exchange i = some x) (hh : x.handled = true) :
      IdempotencyStep fingerprint req s (.commit i)
        (s.setExchange i { x with committed := true })
  | emit {i x body} (hx : s.exchange i = some x) (hh : x.handled = true) :
      IdempotencyStep fingerprint req s (.emit i body)
        (s.setExchange i { x with captured := some body })
  | finish {i x statusCode} (hx : s.exchange i = some x) (hopen : x.ended = none) :
      IdempotencyStep fingerprint req s (.finish i statusCode) (s.finish i x statusCode)
  | close {i x} (hx : s.exchange i = some x) (hopen : x.ended = none) :
      IdempotencyStep fingerprint req s (.close i)
        (s.setExchange i { x with ended := some .close })
  | advance {now} (ht : s.clock ≤ now) :
      IdempotencyStep fingerprint req s (.advance now) { s with clock := now }

theorem IdempotencyState.next_cases {fingerprint : B → String}
    {req : ι → IdempotencyRequest B} {s s' : IdempotencyState ι R}
    {e : IdempotencyEvent ι R} (h : s.next fingerprint req e = some s') :
    IdempotencyStep fingerprint req s e s' := by
  cases e with
  | arrive i now' =>
      simp only [next] at h
      split at h
      · next hc =>
          obtain rfl := Option.some.inj h
          exact .arrive (Option.isNone_iff_eq_none.mp hc.1) hc.2
      · simp at h
  | commit i =>
      simp only [next] at h
      split at h
      · simp at h
      · next x hx =>
          split at h
          · next hh => obtain rfl := Option.some.inj h; exact .commit hx hh
          · simp at h
  | emit i body =>
      simp only [next] at h
      split at h
      · simp at h
      · next x hx =>
          split at h
          · next hh => obtain rfl := Option.some.inj h; exact .emit hx hh
          · simp at h
  | finish i statusCode =>
      simp only [next] at h
      split at h
      · simp at h
      · next x hx =>
          split at h
          · next hopen =>
              obtain rfl := Option.some.inj h
              exact .finish hx (Option.isNone_iff_eq_none.mp hopen)
          · simp at h
  | close i =>
      simp only [next] at h
      split at h
      · simp at h
      · next x hx =>
          split at h
          · next hopen =>
              obtain rfl := Option.some.inj h
              exact .close hx (Option.isNone_iff_eq_none.mp hopen)
          · simp at h
  | advance now =>
      simp only [next] at h
      split at h
      · next ht => obtain rfl := Option.some.inj h; exact .advance ht
      · simp at h

/-- `s'` can follow `s` in a run whose events all meet `C`. -/
abbrev IdempotencyRun (fingerprint : B → String) (req : ι → IdempotencyRequest B)
    (C : IdempotencyState ι R → IdempotencyEvent ι R → Prop) :=
  Relation.ReflTransGen fun s s' : IdempotencyState ι R =>
    ∃ e, C s e ∧ s.next fingerprint req e = some s'

end System

end InvestApi.Ref
