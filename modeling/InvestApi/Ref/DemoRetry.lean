import InvestApi.Ref.Retry

/-!
# `demo:retry`

`src/demo-retry.ts`: the writers around `withRetry`, each adding one amount to
one balance. A barrier holds every first attempt between its read and its write
until all of them have read; later attempts run unimpeded. What the script
prints in the end, it makes of the outcomes and of the balance.
-/

namespace InvestApi.Ref

open InvestApi.Pg

variable {n : Nat}

def WRITERS : Nat := 5

def DELTA_CENTS : Int := 100

def START_BALANCE_CENTS : Int := 1000000

/-- How many have arrived, and whether the promise is resolved. -/
structure Barrier where
  arrived : Nat
  opened : Bool
  deriving DecidableEq, Repr

/-- What a call of `barrier(count)` does before it awaits. -/
def Barrier.arrive (count : Nat) (b : Barrier) : Barrier :=
  ⟨b.arrived + 1, b.opened || decide (b.arrived + 1 ≥ count)⟩

/-- `arrived` is whose first attempt has called `allHaveRead`. -/
structure DemoRetryState (n : Nat) extends RetryState (Fin n) Int where
  barrier : Barrier
  arrived : Fin n → Bool

namespace DemoRetry

/-- What each writer calls `withRetry` with; its callback keeps a log. -/
def options : RetryOptions := ⟨some 10, 20, 400, fun _ => none⟩

def next (balance : Int) : Int := balance + DELTA_CENTS

def boot : DemoRetryState n := ⟨.boot START_BALANCE_CENTS, ⟨0, false⟩, fun _ => false⟩

/-- Whose UPDATE it is, if it is one. -/
def updates : RetryTurn (Fin n) → Option (Fin n)
  | .write i => some i
  | .conflict i _ => some i
  | _ => none

/-- The first attempt of `i` is let through. -/
def passed (s : DemoRetryState n) (i : Fin n) : Prop :=
  (s.calls i).attempt = 1 → s.arrived i = true ∧ s.barrier.opened = true

inductive Turn (n : Nat) where
  | retry (t : RetryTurn (Fin n))
  | arrive (i : Fin n)

inductive Step : DemoRetryState n → Turn n → DemoRetryState n → Prop
  | retry {s t r} (h : RetryStep (fun _ => options) (fun _ => next) s.toRetryState t r)
      (hpassed : ∀ i, updates t = some i → passed s i) :
      Step s (.retry t) ⟨r, s.barrier, s.arrived⟩
  | arrive {s i seen} (hc : (s.calls i).phase = .attempting) (hfirst : (s.calls i).attempt = 1)
      (ht : s.txs i = .read seen) (hnew : s.arrived i = false) :
      Step s (.arrive i)
        ⟨s.toRetryState, s.barrier.arrive n, Function.update s.arrived i true⟩

/-- What the script finds wrong. -/
def problems (writers : Nat) (outcomes : List (RetryOutcome Int)) (finalBalance : Int) :
    List String :=
  let retries := (outcomes.map fun outcome => outcome.retries.length).sum
  let sqlStates := (outcomes.flatMap fun outcome => outcome.retries.map (·.sqlState)).eraseDups
  let expected := START_BALANCE_CENTS + writers * DELTA_CENTS
  (if retries = 0 then
    ["no serialization failure was provoked — the scenario proves nothing"] else [])
  ++ (if finalBalance ≠ expected then
    ["lost update: final balance " ++ toString finalBalance ++ ", expected "
      ++ toString expected] else [])
  ++ (sqlStates.filter fun sqlState => sqlState ≠ "40001" && sqlState ≠ "40P01").map
    fun sqlState => "retried a non-retryable SQLSTATE " ++ sqlState

end DemoRetry

end InvestApi.Ref
