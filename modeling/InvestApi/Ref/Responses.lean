import InvestApi.Codec.Stringify
import InvestApi.Ref.Auth
import InvestApi.Ref.Idempotency

/-!
# What a client of the POST routes receives

The interceptor is global, so every POST route goes through it:
`auth/auth.controller.ts`, `accounts/accounts.controller.ts`,
`transactions/transactions.controller.ts`. What a handler returns is sent under
its route's own `@HttpCode`, with the headers the handler has set; what the store
answers is sent under the code of the route that was asked. Either is held against
`openapi/openapi.yaml` on its way out, since `createApp` validates responses.

The interceptor does not look into what a handler returned, so each value can
carry the request it was returned for: the record of a key then names the request
whose handler produced it.
-/

namespace InvestApi.Ref

open InvestApi.Codec

inductive PostRoute where
  | login
  | refresh
  | logout
  | accounts
  | transactions
  deriving DecidableEq, Repr

/-- `@HttpCode`. -/
def PostRoute.httpCode : PostRoute → Nat
  | .login => 200
  | .refresh => 200
  | .logout => 204
  | .accounts => 201
  | .transactions => 201

inductive HandlerValue where
  | tokens (pair : TokenPair)
  | account (account : Account)
  | batch (transactions : List TransactionResponse)
  deriving DecidableEq

/-- What the handler of a route returns, if it returns. -/
def PostRoute.returns : PostRoute → Option HandlerValue → Bool
  | .login, some (.tokens _) => true
  | .refresh, some (.tokens _) => true
  | .logout, none => true
  | .accounts, some (.account _) => true
  | .transactions, some (.batch _) => true
  | _, _ => false

structure Header where
  name : String
  value : String
  deriving DecidableEq, Repr

/-- The headers a handler sets before it returns: `res.location` is the only one. -/
def handlerHeaders : Option HandlerValue → List Header
  | some (.account account) => [⟨"Location", "/accounts/" ++ account.id.text⟩]
  | _ => []

inductive ResponseBody where
  | empty
  | value (value : HandlerValue)
  | problem
  deriving DecidableEq

structure Response where
  statusCode : Nat
  headers : List Header
  body : ResponseBody
  deriving DecidableEq

/-- The body openapi.yaml declares under the route's own code: a `TokenPair`, an
`Account`, a `TransactionBatch` of one transaction or more, each with the amount that
DRIFT renames; for a 204 none. Bounds and formats of fields are those the request has
been held against. -/
def PostRoute.declares : PostRoute → HandlerValue → Bool
  | .login, .tokens _ => true
  | .refresh, .tokens _ => true
  | .accounts, .account _ => true
  | .transactions, .batch created =>
      !created.isEmpty && created.all (·.amount_cents.isSome)
  | _, _ => false

/-- Without a value nothing is validated. A value goes through `res.json`, which throws
where the spec has no such body; the filter's problem keeps the headers. -/
def PostRoute.reply (route : PostRoute) (headers : List Header) :
    Option HandlerValue → Response
  | none => ⟨route.httpCode, headers, .empty⟩
  | some value =>
      if route.declares value then ⟨route.httpCode, headers, .value value⟩
      else ⟨500, headers, .problem⟩

/-- The response to a request whose handler returned `value`. -/
def PostRoute.written (route : PostRoute) (value : Option HandlerValue) : Response :=
  route.reply (handlerHeaders value) value

def replayHeader : Header := ⟨"Idempotency-Replay", "true"⟩

/-- `of(rec.body)`: the response to a request answered from the store. -/
def PostRoute.replayed (route : PostRoute) (value : Option HandlerValue) : Response :=
  route.reply [replayHeader] value

/-- A request that has passed the guards. `express.json` leaves an object or an
array in `body`, and `{}` where the request had none. -/
structure PostRequest where
  route : PostRoute
  rawKey : Option String
  user : Option Uuid
  body : Json

/-- What the interceptor reads of it. -/
def PostRequest.toIdempotency (r : PostRequest) : IdempotencyRequest Json :=
  ⟨"POST", r.rawKey, r.user, r.body⟩

def fingerprintOf (sha256 : List Char → String) (body : Json) : String := sha256 body.text

/-- What a handler returned, with the request it was called for. -/
structure Returned (ι : Type) where
  request : ι
  value : Option HandlerValue
  deriving DecidableEq

structure Server (ι : Type) where
  core : IdempotencyState ι (Returned ι)
  response : ι → Option Response

inductive ServerEvent (ι : Type) where
  | arrive (i : ι) (now' : Instant)
  /-- The handler returns. -/
  | returns (i : ι) (value : Option HandlerValue)
  /-- The value is sent, the handler's or the store's. -/
  | respond (i : ι)
  /-- The filter sends a problem, where something has thrown. -/
  | fail (i : ι) (statusCode : Nat)
  | close (i : ι)
  | advance (now : Instant)

/-- The response the value of an exchange is sent with. -/
def Exchange.written {ι : Type} (x : Exchange (Returned ι)) (route : PostRoute) :
    Option Response :=
  match x.answer with
  | .ok (.replay body) => some (route.replayed (body.bind (·.value)))
  | .ok _ => x.captured.map fun returned => route.written returned.value
  | .error _ => none

/-- It is answered from the store. -/
def Exchange.fromStore {R : Type} (x : Exchange R) : Bool :=
  match x.answer with
  | .ok (.replay _) => true
  | _ => false

section System

variable {ι : Type} [DecidableEq ι]

def Server.init (clock : Instant) : Server ι := ⟨.init clock, fun _ => none⟩

/-- What an event leads to; `none` where it cannot happen. -/
def Server.next (sha256 : List Char → String) (req : ι → PostRequest) (s : Server ι) :
    ServerEvent ι → Option (Server ι)
  | .arrive i now' =>
      (s.core.next (fingerprintOf sha256) (fun i => (req i).toIdempotency)
        (.arrive i now')).map fun core => { s with core := core }
  | .returns i value =>
      match s.core.exchange i with
      | none => none
      | some x =>
          if x.handled ∧ x.captured.isNone ∧ (req i).route.returns value then
            some { s with core := s.core.setExchange i { x with captured := some ⟨i, value⟩ } }
          else none
  | .respond i =>
      match s.core.exchange i with
      | none => none
      | some x =>
          match x.written (req i).route with
          | none => none
          | some w =>
              if x.ended.isNone then
                some ⟨s.core.finish i x w.statusCode, Function.update s.response i (some w)⟩
              else none
  | .fail i statusCode =>
      match s.core.exchange i with
      | none => none
      | some x =>
          if x.ended.isNone ∧ x.fromStore = false ∧ 400 ≤ statusCode then
            some ⟨s.core.finish i x statusCode,
              Function.update s.response i (some ⟨statusCode, [], .problem⟩)⟩
          else none
  | .close i =>
      (s.core.next (fingerprintOf sha256) (fun i => (req i).toIdempotency)
        (.close i)).map fun core => { s with core := core }
  | .advance now =>
      (s.core.next (fingerprintOf sha256) (fun i => (req i).toIdempotency)
        (.advance now)).map fun core => { s with core := core }

/-- The events in cases. -/
inductive ServerStep (sha256 : List Char → String) (req : ι → PostRequest) (s : Server ι) :
    Server ι → Prop
  | arrive {i now'} (hnew : s.core.exchange i = none) :
      ServerStep sha256 req s
        { s with core := s.core.arrive (fingerprintOf sha256) (req i).toIdempotency i now' }
  | returns {i x value} (hx : s.core.exchange i = some x) (hnone : x.captured = none)
      (hvalue : (req i).route.returns value = true) :
      ServerStep sha256 req s
        { s with core := s.core.setExchange i { x with captured := some ⟨i, value⟩ } }
  | respond {i x w} (hx : s.core.exchange i = some x) (hopen : x.ended = none)
      (hw : x.written (req i).route = some w) :
      ServerStep sha256 req s
        ⟨s.core.finish i x w.statusCode, Function.update s.response i (some w)⟩
  | fail {i x statusCode} (hx : s.core.exchange i = some x) (hopen : x.ended = none)
      (hhandler : x.fromStore = false) (hstatus : 400 ≤ statusCode) :
      ServerStep sha256 req s ⟨s.core.finish i x statusCode,
        Function.update s.response i (some ⟨statusCode, [], .problem⟩)⟩
  | close {i x} (hx : s.core.exchange i = some x) :
      ServerStep sha256 req s
        { s with core := s.core.setExchange i { x with ended := some .close } }
  | advance {now} : ServerStep sha256 req s { s with core := { s.core with clock := now } }

theorem Server.next_cases {sha256 : List Char → String} {req : ι → PostRequest}
    {s s' : Server ι} {e : ServerEvent ι} (h : s.next sha256 req e = some s') :
    ServerStep sha256 req s s' := by
  cases e with
  | arrive i now' =>
      obtain ⟨core, hcore, rfl⟩ := Option.map_eq_some_iff.mp h
      cases IdempotencyState.next_cases hcore with
      | arrive hnew ht => exact .arrive hnew
  | returns i value =>
      simp only [next] at h
      split at h
      · simp at h
      · next x hx =>
          split at h
          · next hc =>
              obtain rfl := Option.some.inj h
              exact .returns hx (Option.isNone_iff_eq_none.mp hc.2.1) hc.2.2
          · simp at h
  | respond i =>
      simp only [next] at h
      split at h
      · simp at h
      · next x hx =>
          split at h
          · simp at h
          · next w hw =>
              split at h
              · next hopen =>
                  obtain rfl := Option.some.inj h
                  exact .respond hx (Option.isNone_iff_eq_none.mp hopen) hw
              · simp at h
  | fail i statusCode =>
      simp only [next] at h
      split at h
      · simp at h
      · next x hx =>
          split at h
          · next hc =>
              obtain rfl := Option.some.inj h
              exact .fail hx (Option.isNone_iff_eq_none.mp hc.1) hc.2.1 hc.2.2
          · simp at h
  | close i =>
      obtain ⟨core, hcore, rfl⟩ := Option.map_eq_some_iff.mp h
      cases IdempotencyState.next_cases hcore with
      | close hx hopen => exact .close hx
  | advance now =>
      obtain ⟨core, hcore, rfl⟩ := Option.map_eq_some_iff.mp h
      cases IdempotencyState.next_cases hcore with
      | advance ht => exact .advance

/-- `s'` can follow `s`. -/
abbrev ServerRun (sha256 : List Char → String) (req : ι → PostRequest) :=
  Relation.ReflTransGen fun s s' : Server ι => ∃ e, s.next sha256 req e = some s'

end System

end InvestApi.Ref
