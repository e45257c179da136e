import InvestApi.Pg.Rule
import InvestApi.Ref.Domain

/-!
# The session tables and `AuthService`

`refresh_tokens` and `revoked_access_tokens` as one keyed database. A refresh
token's row is found by its hash, which is unique and never changes, so the
hash is its key here. A family has no table of its own: `AuthKey.family` only
gives the family id a login draws a name, and no row can be there.

The HMAC of `hashRefresh` and the signer of the access token are parameters.
-/

namespace InvestApi.Ref

open InvestApi.Pg

structure RefreshTokenRow where
  userId : Uuid
  familyId : Uuid
  usedAt : Option Instant
  revokedAt : Option Instant
  expiresAt : Instant
  createdAt : Instant
  deriving DecidableEq, Repr

structure RevokedAccessTokenRow where
  expiresAt : Instant
  deriving DecidableEq, Repr

inductive AuthKey where
  | refreshToken (tokenHash : String)
  | deniedJti (jti : Uuid)
  | family (id : Uuid)
  deriving DecidableEq, Repr

abbrev AuthRow : AuthKey → Type
  | .refreshToken _ => RefreshTokenRow
  | .deniedJti _ => RevokedAccessTokenRow
  | .family _ => Empty

/-- The locking statements of the service. -/
inductive AuthStmt where
  | findToken | markUsed | purgeDenied
  | revokeFamily (familyId : Uuid)
  deriving DecidableEq, Repr

abbrev AuthDb := Db AuthRow

abbrev AuthProg := Prog AuthRow AuthStmt ApiError

structure LoginUser where
  id : Uuid
  role : Role
  deriving DecidableEq, Repr

structure TokenPair where
  access_token : String
  refresh_token : String
  token_type : String
  expires_in : Nat
  deriving DecidableEq, Repr

/-- What the token service answers with: `signAccess` takes the subject, the
role, the session and the jti it drew. -/
structure AuthEnv where
  users : List LoginUser
  hashRefresh : String → String
  signAccess : Uuid → Role → Uuid → Uuid → String

/-- The clock and the random values of one call. -/
structure AuthDraw where
  now : Instant
  refresh : String
  jti : Uuid

def ACCESS_TTL_SECONDS : Nat := 10 * 60

def REFRESH_TTL_SECONDS : Nat := 30 * 24 * 60 * 60

inductive RefreshOutcome where
  | ok (pair : TokenPair)
  | invalid
  | reuse (row : RefreshTokenRow)
  deriving DecidableEq, Repr

/-- `revoked_at IS NOT NULL OR expires_at <= now()`. -/
def RefreshTokenRow.dead (row : RefreshTokenRow) (now : Instant) : Bool :=
  row.revokedAt.isSome || decide (row.expiresAt ≤ now)

namespace AuthService

def familyTokens (familyId : Uuid) (d : AuthDb) : List AuthKey :=
  d.keys.filter fun k =>
    match k with
    | .refreshToken h =>
        (d.get (.refreshToken h)).any fun row =>
          decide (row.familyId = familyId) && row.revokedAt.isNone
    | _ => false

def revokeRow (familyId : Uuid) (now : Instant) :
    (k : AuthKey) → AuthRow k → RowAct (AuthRow k)
  | .refreshToken _, row =>
      if row.familyId = familyId ∧ row.revokedAt = none then
        .put { row with revokedAt := some now }
      else .skip
  | .deniedJti _, _ => .skip
  | .family _, _ => .skip

def revokeFamily (familyId : Uuid) (now : Instant) : AuthProg Unit :=
  .update (.revokeFamily familyId) (familyTokens familyId) (revokeRow familyId now)
    fun _ _ => .ret ()

def successorRow (user : LoginUser) (familyId : Uuid) (now : Instant) :
    RefreshTokenRow where
  userId := user.id
  familyId := familyId
  usedAt := none
  revokedAt := none
  expiresAt := now + REFRESH_TTL_SECONDS * 1000
  createdAt := now

/-- `issue`. The one constraint is the foreign key on the user. -/
def issue (env : AuthEnv) (user : LoginUser) (familyId : Uuid) (draw : AuthDraw) :
    AuthProg TokenPair := do
  .insert [⟨.refreshToken (env.hashRefresh draw.refresh),
      successorRow user familyId draw.now⟩]
    (fun _ => env.users.any (·.id = user.id)) (.ret ())
  return {
    access_token := env.signAccess user.id user.role familyId draw.jti
    refresh_token := draw.refresh
    token_type := "Bearer"
    expires_in := ACCESS_TTL_SECONDS }

def login (env : AuthEnv) (user : LoginUser) (familyId : Uuid) (draw : AuthDraw) :
    AuthProg TokenPair :=
  issue env user familyId draw

def foundToken : List (KeyedRow AuthRow) → Option RefreshTokenRow
  | ⟨.refreshToken _, row⟩ :: _ => some row
  | _ => none

/-- The SELECT … FOR UPDATE. -/
def findToken (tokenHash : String) : AuthProg (Option RefreshTokenRow) :=
  .update .findToken (fun d => d.only (.refreshToken tokenHash) fun _ => true)
    (fun _ row => .put row) fun _ rows => .ret (foundToken rows)

def useRow (now : Instant) : (k : AuthKey) → AuthRow k → RowAct (AuthRow k)
  | .refreshToken _, row => .put { row with usedAt := some now }
  | .deniedJti _, _ => .skip
  | .family _, _ => .skip

def markUsed (tokenHash : String) (now : Instant) : AuthProg Unit :=
  .update .markUsed (fun d => d.only (.refreshToken tokenHash) fun _ => true)
    (useRow now) fun _ _ => .ret ()

/-- The callback of `refresh`. -/
def rotate (env : AuthEnv) (token : String) (draw : AuthDraw) :
    AuthProg RefreshOutcome := do
  match ← findToken (env.hashRefresh token) with
  | none => return .invalid
  | some row =>
      if row.dead draw.now then
        return .invalid
      else if row.usedAt.isSome then
        revokeFamily row.familyId draw.now
        return .reuse row
      else
        markUsed (env.hashRefresh token) draw.now
        match ← Prog.query fun _ => env.users.find? (·.id = row.userId) with
        | none => .raise (.error "Cannot read properties of undefined (reading 'id')")
        | some user =>
            let pair ← issue env user row.familyId draw
            return .ok pair

/-- What `refresh` does with the outcome, after the COMMIT. -/
def answer : RefreshOutcome → Except ApiError TokenPair
  | .reuse _ => .error (.problem 401 "refresh-reuse-detected"
      "refresh token reuse detected; the session was revoked")
  | .invalid => .error (.problem 401 "refresh-invalid"
      "refresh token is invalid, expired or revoked")
  | .ok pair => .ok pair

def expiredDenials (now : Instant) (d : AuthDb) : List AuthKey :=
  d.keys.filter fun k =>
    match k with
    | .deniedJti j => (d.get (.deniedJti j)).any fun row => decide (row.expiresAt ≤ now)
    | _ => false

def purgeRow (now : Instant) : (k : AuthKey) → AuthRow k → RowAct (AuthRow k)
  | .deniedJti _, row => if row.expiresAt ≤ now then .delete else .skip
  | .refreshToken _, _ => .skip
  | .family _, _ => .skip

def purgeDenied (now : Instant) : AuthProg Unit :=
  .update .purgeDenied (expiredDenials now) (purgeRow now) fun _ _ => .ret ()

/-- The callback of `logout`. -/
def logout (user : AuthUser) (now : Instant) : AuthProg Unit := do
  revokeFamily user.sid now
  .insertIgnore (.deniedJti user.jti) ⟨user.exp * 1000⟩ (.ret ())
  purgeDenied now

end AuthService

/-! ## The concurrent calls -/

inductive AuthCall where
  | login (user : LoginUser) (familyId : Uuid) (draw : AuthDraw)
  | refresh (token : String) (draw : AuthDraw)
  | logout (user : AuthUser) (now : Instant)

inductive AuthReply where
  | pair (pair : TokenPair)
  | refused (error : ApiError)
  | loggedOut
  deriving DecidableEq, Repr

def AuthReply.ofAnswer : Except ApiError TokenPair → AuthReply
  | .ok tokens => .pair tokens
  | .error e => .refused e

def AuthCall.body (env : AuthEnv) : AuthCall → AuthProg AuthReply
  | .login user familyId draw => do
      let pair ← AuthService.login env user familyId draw
      return .pair pair
  | .refresh token draw => do
      let outcome ← AuthService.rotate env token draw
      return .ofAnswer (AuthService.answer outcome)
  | .logout user now => do
      AuthService.logout user now
      return .loggedOut

/-- A login draws its family; the hash of a new token only meets the unique
index. -/
def AuthCall.draws : AuthCall → List AuthKey
  | .login _ familyId _ => [.family familyId]
  | _ => []

/-- A random family id is one no row has. -/
def freshFamily (d : AuthDb) : AuthKey → Bool
  | .family f =>
      d.keys.all fun k =>
        match k with
        | .refreshToken h =>
            (d.get (.refreshToken h)).all fun row => decide (row.familyId ≠ f)
        | _ => true
  | k => (d.get k).isNone

def authSystem {ι : Type} (env : AuthEnv) (calls : ι → AuthCall) :
    System ι AuthRow AuthStmt ApiError AuthReply where
  body i := (calls i).body env
  draws i := (calls i).draws
  fresh := freshFamily

abbrev AuthWorld (ι : Type) := World ι AuthRow ApiError AuthReply

abbrev AuthState (ι : Type) := State ι AuthRow AuthStmt ApiError AuthReply

abbrev AuthSession := Session AuthRow AuthStmt

end InvestApi.Ref
