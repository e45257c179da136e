import InvestApi.Ref.AccessTokens
import InvestApi.Ref.LedgerSystem

/-!
# The guards

`src/auth/guards.ts` and the decorators of the controllers: which routes ask for
a token and for which role, and what the two global guards make of what passport
answers. `JwtAuthGuard` comes first.
-/

namespace InvestApi.Ref

/-- The spelling of a role in a token and in messages. -/
def Role.text : Role → String
  | viewer => "viewer"
  | member => "member"

/-- What `@Public()` and `@Roles(…)` have set on a handler or its class. -/
structure RouteMetadata where
  isPublic : Bool
  roles : Option (List Role)
  deriving DecidableEq, Repr

/-- The handlers of the controllers. -/
inductive Route where
  | login | refresh | logout
  | listAccounts | createAccount | getAccount
  | listTransactions | createTransactions | getTransaction
  | changeStatus | orderEvents
  | latestFxRate | listCurrencies | getCurrency
  | liveness | database
  deriving DecidableEq, Repr

def Route.metadata : Route → RouteMetadata
  | login => ⟨true, none⟩
  | refresh => ⟨true, none⟩
  | logout => ⟨false, none⟩
  | listAccounts => ⟨false, none⟩
  | createAccount => ⟨false, some [.member]⟩
  | getAccount => ⟨false, none⟩
  | listTransactions => ⟨false, none⟩
  | createTransactions => ⟨false, some [.member]⟩
  | getTransaction => ⟨false, none⟩
  | changeStatus => ⟨false, some [.member]⟩
  | orderEvents => ⟨true, none⟩
  | latestFxRate => ⟨true, none⟩
  | listCurrencies => ⟨true, none⟩
  | getCurrency => ⟨true, none⟩
  | liveness => ⟨true, none⟩
  | database => ⟨true, none⟩

/-- What passport hands to `handleRequest`: the error of the strategy, the user,
or its own reason for finding none. -/
inductive Passport where
  | error (err : ApiError)
  | user (user : AuthUser)
  | info (message : Option String)

def JwtAuthGuard.handleRequest : Passport → Except ApiError AuthUser
  | .error err => .error err
  | .user user => .ok user
  | .info message =>
      .error (.problem 401 "invalid-token" (message.getD "access token required"))

/-- The user it leaves on the request, if the route asks for one. -/
def JwtAuthGuard.canActivate (metadata : RouteMetadata) (passport : Passport) :
    Except ApiError (Option AuthUser) :=
  if metadata.isPublic then .ok none
  else (JwtAuthGuard.handleRequest passport).map some

def RolesGuard.canActivate (metadata : RouteMetadata) (user : Option AuthUser) :
    Except ApiError Unit :=
  match metadata.roles with
  | none => .ok ()
  | some roles =>
      if user.any fun u => u.role ∈ roles then .ok ()
      else .error (.problem 403 "forbidden-role"
        ("requires role " ++ " or ".intercalate (roles.map Role.text)))

/-- Both, in the order in which the module provides them. -/
def guards (route : Route) (passport : Passport) : Except ApiError (Option AuthUser) := do
  let user ← JwtAuthGuard.canActivate route.metadata passport
  RolesGuard.canActivate route.metadata user
  return user

/-- What the JWT strategy answers for a token, once it does. -/
def AccessPhase.passport : AccessPhase → Option Passport
  | .waiting => none
  | .expired _ _ => some (.info (some "jwt expired"))
  | .verified _ _ => none
  | .asking _ _ _ => none
  | .answered _ _ _ (.ok user) => some (.user user)
  | .answered _ _ _ (.error err) => some (.error err)

/-! ## The calls behind the routes -/

/-- The checkout is a script; it has no route and no user. -/
def LedgerCall.route : LedgerCall → Option Route
  | .createAccount _ _ _ _ => some .createAccount
  | .createTransactions _ _ _ _ => some .createTransactions
  | .changeStatus _ _ _ => some .changeStatus
  | .checkout _ _ => none

def LedgerCall.user : LedgerCall → Option AuthUser
  | .createAccount _ user _ _ => some user
  | .createTransactions _ user _ _ => some user
  | .changeStatus _ _ user => some user
  | .checkout _ _ => none

end InvestApi.Ref
