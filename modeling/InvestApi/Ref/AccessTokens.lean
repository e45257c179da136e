import InvestApi.Lts.Run
import InvestApi.Ref.Auth

/-!
# Access tokens

`src/auth/jwt.strategy.ts`, `isRevoked` and `verifyAccess` of
`src/auth/tokens.service.ts`. A token is known by its jti: the claims the server
signed under it never change. A request looks at the clock twice, once in the
JWT library and once in Postgres, and the sessions' own calls go on in between;
all of them read one clock, which only moves forward. `now()` is the time a
transaction began. The SELECT on the denylist is a transaction too, of one
statement: its `now()` is read first and its snapshot is taken after, and a call
may commit between the two.
-/

namespace InvestApi.Ref

open InvestApi.Pg

variable {ι ρ : Type}

structure AccessPayload where
  sub : Uuid
  role : Role
  sid : Uuid
  jti : Uuid
  exp : Int
  deriving DecidableEq, Repr

def toAuthUser (payload : AccessPayload) : AuthUser where
  id := payload.sub
  role := payload.role
  jti := payload.jti
  sid := payload.sid
  exp := payload.exp

/-- What the server signed under a jti. -/
structure TokenClaims where
  sub : Uuid
  role : Role
  sid : Uuid
  exp : Int

abbrev SignedTokens := Uuid → TokenClaims

namespace SignedTokens

def payload (claims : SignedTokens) (jti : Uuid) : AccessPayload where
  sub := (claims jti).sub
  role := (claims jti).role
  sid := (claims jti).sid
  jti := jti
  exp := (claims jti).exp

/-- The instant a token expires at. -/
def expiresAt (claims : SignedTokens) (jti : Uuid) : Instant := (claims jti).exp * 1000

end SignedTokens

/-- The expiry check of the JWT library, which reads the clock in whole
seconds. -/
structure JwtLibrary where
  unexpired : Instant → Int → Bool
  unexpired_iff : ∀ now exp, unexpired now exp = true ↔ now / 1000 < exp

def TokensService.isRevoked (d : AuthDb) (jti : Uuid) (now : Instant) : Bool :=
  (d.get (.deniedJti jti)).any fun row => decide (now < row.expiresAt)

/-- Who asks: passport for a request, the socket gateway for a handshake. -/
inductive AccessGuard where
  | validate
  | verifyAccess
  deriving DecidableEq, Repr

/-- What either makes of the answer of `isRevoked`. -/
def AccessGuard.answer (guard : AccessGuard) (payload : AccessPayload) (revoked : Bool) :
    Except ApiError AuthUser :=
  if revoked then
    match guard with
    | .validate => .error (.problem 401 "token-revoked" "access token was revoked")
    | .verifyAccess => .error (.error "access token was revoked")
  else .ok (toAuthUser payload)

structure AccessRequest where
  guard : AccessGuard
  jti : Uuid

/-- A SELECT on the denylist: its `now()`, when its snapshot was taken, and what
the snapshot has for the token. -/
structure DenylistQuery where
  now : Instant
  seenAt : Instant
  seen : Option RevokedAccessTokenRow

/-- `since` is how many calls had ended when the request began. -/
inductive AccessPhase where
  | waiting
  | expired (since : Nat) (checkedAt : Instant)
  /-- The library has accepted the token. -/
  | verified (since : Nat) (checkedAt : Instant)
  /-- The SELECT has begun, at `now`. -/
  | asking (since : Nat) (checkedAt now : Instant)
  | answered (since : Nat) (checkedAt : Instant) (query : DenylistQuery)
      (reply : Except ApiError AuthUser)

inductive SessionCall where
  | login (user : LoginUser) (familyId : Uuid) (draw : AuthDraw)
  | refresh (token : String) (draw : AuthDraw)
  /-- A logout with the token `jti`. -/
  | logout (jti : Uuid) (now : Instant)

namespace SessionCall

def now : SessionCall → Instant
  | .login _ _ draw => draw.now
  | .refresh _ draw => draw.now
  | .logout _ now => now

def toAuthCall (claims : SignedTokens) : SessionCall → AuthCall
  | .login user familyId draw => .login user familyId draw
  | .refresh token draw => .refresh token draw
  | .logout jti now => .logout (toAuthUser (claims.payload jti)) now

end SessionCall

/-- Everything a run of sessions is given. -/
structure Sessions (ι ρ : Type) where
  env : AuthEnv
  jwt : JwtLibrary
  claims : SignedTokens
  calls : ι → SessionCall
  requests : ρ → AccessRequest

def Sessions.authCall (S : Sessions ι ρ) (i : ι) : AuthCall := (S.calls i).toAuthCall S.claims

def Sessions.system (S : Sessions ι ρ) : System ι AuthRow AuthStmt ApiError AuthReply :=
  authSystem S.env S.authCall

structure SessionState (ι ρ : Type) extends
    State ι AuthRow AuthStmt ApiError AuthReply where
  clock : Instant
  phases : ρ → AccessPhase

def SessionState.boot (clock : Instant) : SessionState ι ρ :=
  ⟨.init Db.empty, clock, fun _ => .waiting⟩

inductive SessionTurn (ρ : Type) where
  | tick
  | call
  | verify (r : ρ)
  | ask (r : ρ)
  | query (r : ρ)

/-- The request begins. -/
def SessionState.verify [DecidableEq ρ] (S : Sessions ι ρ) (s : SessionState ι ρ) (r : ρ) :
    SessionState ι ρ :=
  { s with
    phases := Function.update s.phases r
      (if S.jwt.unexpired s.clock (S.claims (S.requests r).jti).exp then
        .verified s.log.length s.clock
      else .expired s.log.length s.clock) }

/-- The transaction of the SELECT begins. -/
def SessionState.ask [DecidableEq ρ] (s : SessionState ι ρ) (r : ρ) (since : Nat)
    (checkedAt : Instant) : SessionState ι ρ :=
  { s with phases := Function.update s.phases r (.asking since checkedAt s.clock) }

/-- Its snapshot is taken, and the denylist answers. -/
def SessionState.query [DecidableEq ρ] (S : Sessions ι ρ) (s : SessionState ι ρ) (r : ρ)
    (since : Nat) (checkedAt now : Instant) : SessionState ι ρ :=
  { s with
    phases := Function.update s.phases r
      (.answered since checkedAt ⟨now, s.clock, s.db.get (.deniedJti (S.requests r).jti)⟩
        ((S.requests r).guard.answer (S.claims.payload (S.requests r).jti)
          (TokensService.isRevoked s.db (S.requests r).jti now))) }

inductive SessionStep [DecidableEq ι] [DecidableEq ρ] (S : Sessions ι ρ) :
    SessionState ι ρ → SessionTurn ρ → SessionState ι ρ → Prop
  | tick {s clock} (h : s.clock ≤ clock) :
      SessionStep S s .tick { s with clock := clock }
  | call {s} {a : AuthState ι} (h : Step S.system (fun _ _ => True) s.toState a)
      (hnow : ∀ i, s.live i = none → a.live i ≠ none → (S.calls i).now = s.clock) :
      SessionStep S s .call ⟨a, s.clock, s.phases⟩
  | verify {s r} (hr : s.phases r = .waiting) :
      SessionStep S s (.verify r) (s.verify S r)
  | ask {s r since checkedAt} (hr : s.phases r = .verified since checkedAt) :
      SessionStep S s (.ask r) (s.ask r since checkedAt)
  | query {s r since checkedAt now} (hr : s.phases r = .asking since checkedAt now) :
      SessionStep S s (.query r) (s.query S r since checkedAt now)

end InvestApi.Ref
