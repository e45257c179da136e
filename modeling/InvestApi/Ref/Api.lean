import InvestApi.Ref.Guards
import InvestApi.Ref.OrderEvents
import InvestApi.Ref.Transactions

/-!
# The API with its sockets

`src/orders/orders.gateway.ts` in its process: sessions and tokens, the guarded
calls of the ledger with the events they publish, and the sockets. A `join` asks
for the handshake token, loads the order as `getById` does, one SELECT at a
time, and adds the socket to the order's room; an event goes to the sockets that
are in its room when it is published. A token is one the server has signed;
everything else `verifyAccess` throws at once for.

What a socket that is gone has joined is nobody's: socket.io sends it nothing.
-/

namespace InvestApi.Ref

open InvestApi.Pg

variable {κ ρ ι σ : Type}

/-- What `join` resolves to. -/
inductive JoinAck where
  | joined (room : String)
  | refused (error : String)
  deriving DecidableEq, Repr

def orderRoom (orderId : String) : String := "orders:" ++ orderId

/-- A `join` with its socket: whether the handshake carries a token, and
`body.orderId` if it is a string. -/
structure JoinMessage (σ : Type) where
  client : σ
  hasToken : Bool
  orderId : Option String

inductive JoinPhase where
  /-- `verifyAccess` is under way. -/
  | verifying
  /-- `getById` is, and this is what is left of it. -/
  | loading (orderId : String) (user : AuthUser) (rest : LedgerProg TransactionResponse)
  | acked (ack : JoinAck)

structure OrderSocket where
  connected : Bool
  rooms : List String
  heard : List OrderStatusEvent

namespace OrderSocket

/-- A socket that has just connected. -/
def fresh : OrderSocket := ⟨true, [], []⟩

def join (socket : OrderSocket) (room : String) : OrderSocket :=
  { socket with rooms := room :: socket.rooms }

def disconnect (socket : OrderSocket) : OrderSocket :=
  { socket with connected := false }

/-- `server.to(room).emit('order.status', event)`, as this socket gets it. -/
def hear (socket : OrderSocket) (event : OrderStatusEvent) : OrderSocket :=
  if socket.connected ∧ orderRoom event.order_id ∈ socket.rooms then
    { socket with heard := socket.heard ++ [event] }
  else socket

end OrderSocket

/-- Everything a run of the API is given. -/
structure Api (κ ρ ι σ : Type) where
  sessions : Sessions κ ρ
  env : Env
  validators : Validators
  calls : ι → LedgerCall
  /-- The HTTP request a call answers. -/
  request : ι → ρ
  joins : ρ → Option (JoinMessage σ)

structure ApiWorld (κ ρ ι σ : Type) where
  sessions : SessionState κ ρ
  events : EventWorld ι
  joins : ρ → JoinPhase
  sockets : σ → OrderSocket

namespace ApiWorld

def boot (clock : Instant) (d : LedgerDb) : ApiWorld κ ρ ι σ where
  sessions := .boot clock
  events := .boot d
  joins _ := .verifying
  sockets _ := .fresh

def db (s : ApiWorld κ ρ ι σ) : LedgerDb := s.events.ledger.db

def setJoin [DecidableEq ρ] (s : ApiWorld κ ρ ι σ) (r : ρ) (phase : JoinPhase) :
    ApiWorld κ ρ ι σ :=
  { s with joins := Function.update s.joins r phase }

def setSocket [DecidableEq σ] (s : ApiWorld κ ρ ι σ) (w : σ) (socket : OrderSocket) :
    ApiWorld κ ρ ι σ :=
  { s with sockets := Function.update s.sockets w socket }

/-- The gateway's subscription hands on what has been emitted since. -/
def publish (s : ApiWorld κ ρ ι σ) (events : EventWorld ι) : ApiWorld κ ρ ι σ :=
  { s with
    events := events
    sockets := fun w =>
      (events.emitted.drop s.events.emitted.length).foldl (fun socket p => socket.hear p.2)
        (s.sockets w) }

end ApiWorld

namespace Api

/-- The guards have let call `i` through. -/
def MayStart (A : Api κ ρ ι σ) (s : ApiWorld κ ρ ι σ) (i : ι) : Prop :=
  ∀ route, (A.calls i).route = some route →
    (A.sessions.requests (A.request i)).guard = .validate ∧
      ∃ passport, (s.sessions.phases (A.request i)).passport = some passport ∧
        guards route passport = .ok (A.calls i).user

end Api

namespace OrdersGateway

/-- `verifyAccess(token).catch(() => null)` once it is answered, and null without
a token. -/
def verdict (message : JoinMessage σ) (phase : AccessPhase) : Option (Option AuthUser) :=
  if message.hasToken then
    match phase with
    | .waiting => none
    | .verified _ _ => none
    | .asking _ _ _ => none
    | .expired _ _ => some none
    | .answered _ _ _ (.ok user) => some (some user)
    | .answered _ _ _ (.error _) => some none
  else some none

/-- Where `join` goes once it knows the user. -/
def enter (validators : Validators) (env : Env) (message : JoinMessage σ)
    (user : Option AuthUser) : JoinPhase :=
  match user with
  | none => .acked (.refused "unauthorized")
  | some user =>
      match message.orderId with
      | none => .acked (.refused "transaction-not-found")
      | some orderId =>
          if validators.isUUID4 orderId then
            .loading orderId user (TransactionsService.getById env orderId user)
          else .acked (.refused "transaction-not-found")

/-- What the `catch` acks with. -/
def refusal : ApiError → JoinAck
  | .problem _ code _ => .refused code
  | _ => .refused "internal"

end OrdersGateway

inductive ApiTurn (ρ ι σ : Type) where
  | session (turn : SessionTurn ρ)
  | event (turn : EventTurn ι)
  | enter (r : ρ)
  | query (r : ρ)
  /-- A SELECT of the join fails. -/
  | fault (r : ρ)
  | answer (r : ρ)
  | disconnect (w : σ)

inductive ApiStep [DecidableEq κ] [DecidableEq ρ] [DecidableEq ι] [DecidableEq σ]
    (A : Api κ ρ ι σ) : ApiWorld κ ρ ι σ → ApiTurn ρ ι σ → ApiWorld κ ρ ι σ → Prop
  | session {s t a} (h : SessionStep A.sessions s.sessions t a) :
      ApiStep A s (.session t) { s with sessions := a }
  | event {s t ev} (h : EventStep A.env A.calls s.events t ev)
      (hstart : ∀ i, s.events.ledger.live i = none → ev.ledger.live i ≠ none → A.MayStart s i) :
      ApiStep A s (.event t) (s.publish ev)
  | enter {s r message user} (hr : s.joins r = .verifying) (hm : A.joins r = some message)
      (hguard : (A.sessions.requests r).guard = .verifyAccess)
      (hverdict : OrdersGateway.verdict message (s.sessions.phases r) = some user) :
      ApiStep A s (.enter r) (s.setJoin r (OrdersGateway.enter A.validators A.env message user))
  | query {s r orderId user next} (hr : s.joins r = .loading orderId user (.select next)) :
      ApiStep A s (.query r) (s.setJoin r (.loading orderId user (next s.db)))
  | fault {s r orderId user next} (hr : s.joins r = .loading orderId user (.select next)) :
      ApiStep A s (.fault r) (s.setJoin r (.acked (.refused "internal")))
  | refuse {s r orderId user e} (hr : s.joins r = .loading orderId user (.raise e)) :
      ApiStep A s (.answer r) (s.setJoin r (.acked (OrdersGateway.refusal e)))
  | join {s r message orderId user tx} (hr : s.joins r = .loading orderId user (.ret tx))
      (hm : A.joins r = some message) :
      ApiStep A s (.answer r)
        ((s.setJoin r (.acked (.joined (orderRoom orderId)))).setSocket message.client
          ((s.sockets message.client).join (orderRoom orderId)))
  | disconnect {s w} :
      ApiStep A s (.disconnect w) (s.setSocket w (s.sockets w).disconnect)

end InvestApi.Ref
