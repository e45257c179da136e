import InvestApi.Pg.SnapshotRow
import InvestApi.Ref.Domain

/-!
# `withRetry`

`src/concurrency/retry.ts`: a transaction that is run again from its beginning,
reads included, when Postgres has aborted it with 40001 or 40P01. Around it are
the writers of `src/demo-retry.ts`, any number of them under REPEATABLE READ:
each reads the balance of one row, computes a new one in JavaScript and writes
the absolute value back. A call may fail at any moment and with any error; the
back-off ends at any moment after it began.
-/

namespace InvestApi.Ref

open InvestApi.Pg

variable {ι V : Type}

/-- A field of a caught value, read with `?.`. -/
inductive ErrorField where
  | nullish
  | text (s : String)
  | other
  deriving DecidableEq, Repr

/-- What `sqlStateOf` looks at. -/
structure ThrownError where
  code : ErrorField
  driverErrorCode : ErrorField
  deriving DecidableEq, Repr

def RETRYABLE_SQLSTATES : List String := ["40001", "40P01"]

/-- `code ?? driverError.code`, if it is a string. -/
def sqlStateOf (error : ThrownError) : Option String :=
  match error.code with
  | .text s => some s
  | .other => none
  | .nullish =>
      match error.driverErrorCode with
      | .text s => some s
      | _ => none

def isRetryable (error : ThrownError) : Bool :=
  match sqlStateOf error with
  | some code => RETRYABLE_SQLSTATES.contains code
  | none => false

structure RetryInfo where
  attempt : Nat
  sqlState : String
  delayMs : Number
  deriving DecidableEq, Repr

structure RetryOptions where
  /-- `none` is `Infinity` or `NaN`, which no attempt reaches. -/
  maxAttempts : Option Number
  baseDelayMs : Number
  maxDelayMs : Number
  /-- What the callback throws, if it does. -/
  onRetry : RetryInfo → Option ThrownError

structure RetryOutcome (V : Type) where
  result : V
  attempts : Nat
  retries : List RetryInfo
  deriving DecidableEq, Repr

/-- `attempt >= options.maxAttempts` -/
def RetryOptions.exhausted (options : RetryOptions) (attempt : Nat) : Bool :=
  match options.maxAttempts with
  | some maxAttempts => decide ((attempt : Number) ≥ maxAttempts)
  | none => false

/-- Exponential back-off with full jitter; `random` is what `Math.random()`
answers. -/
def RetryOptions.delayMs (options : RetryOptions) (attempt : Nat) (random : Number) :
    Number :=
  let ceiling := min (options.baseDelayMs * 2 ^ (attempt - 1)) options.maxDelayMs
  max 1 ((random * ceiling + 1 / 2).floor : Number)

inductive CallPhase (V : Type) where
  | attempting
  /-- The COMMIT is done and its answer on the way. -/
  | committed (result : V)
  | sleeping
  | returned (outcome : RetryOutcome V)
  | threw (error : ThrownError)
  /-- The call threw because the COMMIT's answer never came. -/
  | lost (error : ThrownError)
  deriving DecidableEq

/-- One call of `withRetry`. -/
structure RetryCall (V : Type) where
  phase : CallPhase V
  attempt : Nat
  retries : List RetryInfo
  deriving DecidableEq

namespace RetryCall

def start : RetryCall V := ⟨.attempting, 1, []⟩

/-- The `catch` block. -/
def failed (c : RetryCall V) (options : RetryOptions) (error : ThrownError)
    (random : Number) : RetryCall V :=
  if !isRetryable error || options.exhausted c.attempt then
    { c with phase := .threw error }
  else
    let info : RetryInfo :=
      ⟨c.attempt, (sqlStateOf error).getD "", options.delayMs c.attempt random⟩
    match options.onRetry info with
    | some thrown => { c with phase := .threw thrown, retries := c.retries ++ [info] }
    | none => { c with phase := .sleeping, retries := c.retries ++ [info] }

def wake (c : RetryCall V) : RetryCall V :=
  { c with phase := .attempting, attempt := c.attempt + 1 }

def hasReturned (c : RetryCall V) : Bool :=
  match c.phase with
  | .returned _ => true
  | _ => false

/-- The call is over, and if it threw, the last attempt was aborted. -/
def settled (c : RetryCall V) : Bool :=
  match c.phase with
  | .returned _ => true
  | .threw _ => true
  | _ => false

end RetryCall

/-- Postgres' answer to a write of a row that was written since the snapshot. -/
def serializationFailure : ThrownError := ⟨.text "40001", .text "40001"⟩

structure RetryState (ι V : Type) extends RowState ι V where
  calls : ι → RetryCall V

inductive RetryTurn (ι : Type) where
  | read (i : ι)
  | write (i : ι)
  | conflict (i : ι) (random : Number)
  | fail (i : ι) (error : ThrownError) (random : Number)
  | commit (i : ι)
  | answer (i : ι)
  | lose (i : ι) (error : ThrownError)
  | wake (i : ι)

namespace RetryState

variable [DecidableEq ι]

def boot (v : V) : RetryState ι V := ⟨.boot v, fun _ => .start⟩

def setCall (s : RetryState ι V) (i : ι) (c : RetryCall V) : RetryState ι V :=
  { s with calls := Function.update s.calls i c }

def setPhase (s : RetryState ι V) (i : ι) (phase : CallPhase V) : RetryState ι V :=
  s.setCall i { s.calls i with phase := phase }

/-- The attempt is aborted, and the call goes on with `error`. -/
def abort (s : RetryState ι V) (i : ι) (options : RetryOptions) (error : ThrownError)
    (random : Number) : RetryState ι V :=
  ⟨s.setTx i .begun,
    Function.update s.calls i ((s.calls i).failed options error random)⟩

end RetryState

/-- `next i` is what writer `i` makes of the balance it has read. -/
inductive RetryStep [DecidableEq ι] (options : ι → RetryOptions) (next : ι → V → V) :
    RetryState ι V → RetryTurn ι → RetryState ι V → Prop
  | read {s i} {r : RowState ι V} (hc : (s.calls i).phase = .attempting)
      (hr : RowStep next s.toRowState (.read i) r) :
      RetryStep options next s (.read i) ⟨r, s.calls⟩
  | write {s i} {r : RowState ι V} (hc : (s.calls i).phase = .attempting)
      (hr : RowStep next s.toRowState (.write i) r) :
      RetryStep options next s (.write i) ⟨r, s.calls⟩
  /-- The snapshot is old, which the writer sees at once or after waiting for
  the lock. -/
  | conflict {s i seen random} (hc : (s.calls i).phase = .attempting)
      (ht : s.txs i = .read seen) (hold : seen.version ≠ s.row.version) :
      RetryStep options next s (.conflict i random)
        (s.abort i (options i) serializationFailure random)
  /-- 40P01 when Postgres breaks a deadlock, or whatever else goes wrong. -/
  | fail {s i error random} (hc : (s.calls i).phase = .attempting) :
      RetryStep options next s (.fail i error random)
        (s.abort i (options i) error random)
  | commit {s i new} (hc : (s.calls i).phase = .attempting)
      (ht : s.txs i = .written new) :
      RetryStep options next s (.commit i)
        ⟨s.toRowState.commit i new,
          Function.update s.calls i { s.calls i with phase := .committed new }⟩
  | answer {s i result} (hc : (s.calls i).phase = .committed result) :
      RetryStep options next s (.answer i)
        (s.setPhase i
          (.returned ⟨result, (s.calls i).attempt, (s.calls i).retries⟩))
  /-- No answer to the COMMIT, which is no abort. -/
  | lose {s i result error} (hc : (s.calls i).phase = .committed result)
      (herror : isRetryable error = false) :
      RetryStep options next s (.lose i error) (s.setPhase i (.lost error))
  | wake {s i} (hc : (s.calls i).phase = .sleeping) :
      RetryStep options next s (.wake i) (s.setCall i (s.calls i).wake)

end InvestApi.Ref
