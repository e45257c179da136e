import InvestApi.Codec.Text
import InvestApi.Ref.Auth

/-!
# Passwords

`src/auth/password.ts` and `validateUser` of `src/auth/auth.service.ts`. A stored
value is any text: it is split at every `$`, its second and third parts are read as
base64url, and the length asked of scrypt is that of what the third part says.

`scrypt` and the sixteen random bytes are parameters.
-/

namespace InvestApi.Ref

open InvestApi.Codec

/-- `crypto.scrypt`: bytes, as many as it is asked for. -/
structure Scrypt where
  key : String → List Nat → Nat → List Nat
  length_key : ∀ password salt keylen, (key password salt keylen).length = keylen
  key_lt : ∀ password salt keylen, ∀ b ∈ key password salt keylen, b < 256

def KEY_LENGTH : Nat := 32

/-- What `randomBytes` is asked for. -/
def SALT_LENGTH : Nat := 16

/-- The text of a salt and a hash. -/
def record (salt hash : List Nat) : String :=
  "scrypt$" ++ String.ofList (encode salt) ++ "$" ++ String.ofList (encode hash)

/-- `salt` is what `randomBytes` draws. -/
def hashPassword (scrypt : Scrypt) (password : String) (salt : List Nat) : String :=
  record salt (scrypt.key password salt KEY_LENGTH)

def DUMMY_HASH : String :=
  record (List.replicate SALT_LENGTH 0) (List.replicate KEY_LENGTH 0)

/-- `crypto.timingSafeEqual`: it throws on two lengths. -/
def timingSafeEqual (a b : List Nat) : Except ApiError Bool :=
  if a.length = b.length then .ok (decide (a = b))
  else .error (.error "Input buffers must have the same byte length")

/-- The salt and the hash a stored value is taken for; what comes after a third `$`
is not looked at. -/
def readStored (stored : String) : Option (List Nat × List Nat) :=
  match stored.toList.splitOn '$' with
  | scheme :: salt :: hash :: _ =>
      if scheme ≠ "scrypt".toList ∨ salt.isEmpty ∨ hash.isEmpty then none
      else some (decode salt, decode hash)
  | _ => none

def verifyPassword (scrypt : Scrypt) (password : String) (stored : Option String) :
    Except ApiError Bool :=
  match readStored (stored.getD DUMMY_HASH) with
  | none => .ok false
  | some (salt, expected) =>
      (timingSafeEqual (scrypt.key password salt expected.length) expected).map fun equal =>
        equal && stored.isSome

/-! ## AuthService.validateUser -/

structure UserRow where
  id : Uuid
  email : String
  role : Role
  password_hash : Option String
  deriving DecidableEq, Repr

/-- SELECT … WHERE email = $1, which is unique. -/
def findByEmail (users : List UserRow) (email : String) : Option UserRow :=
  users.find? fun user => user.email = email

def AuthService.validateUser (scrypt : Scrypt) (users : List UserRow)
    (email password : String) : Except ApiError (Option LoginUser) :=
  let user := findByEmail users email
  (verifyPassword scrypt password (user.bind (·.password_hash))).map fun ok =>
    if ok then user.map fun u => ⟨u.id, u.role⟩ else none

end InvestApi.Ref
