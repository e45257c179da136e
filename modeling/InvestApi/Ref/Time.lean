import Mathlib.Data.Int.Notation

/-!
# Instants and their text

An instant is a whole number of milliseconds since the epoch: what a
`timestamptz(3)` column and a JavaScript `Date` both hold. `toISOString` is
the text of one in UTC, `toDateOnly` its calendar day.
-/

namespace InvestApi.Ref

abbrev Instant := Int

/-- A `timestamptz` value as Postgres reads one: microseconds since the epoch,
the infinities its extreme values. -/
abbrev Timestamptz := Int

def Instant.timestamptz (t : Instant) : Timestamptz := t * 1000

def MS_PER_DAY : Int := 86400000

/-- Year, month and day of a day number counted from 1970-01-01. The year is
reckoned from March, so that the leap day comes last. -/
def civil (day : Int) : Int × Int × Int :=
  let z := day + 719468
  let era := z / 146097
  let doe := z % 146097
  let yoe := (doe - doe / 1460 + doe / 36524 - doe / 146096) / 365
  let doy := doe - (365 * yoe + yoe / 4 - yoe / 100)
  let mp := (5 * doy + 2) / 153
  let m := if mp < 10 then mp + 3 else mp - 9
  (yoe + era * 400 + (if m ≤ 2 then 1 else 0), m, doy - (153 * mp + 2) / 5 + 1)

/-- The last `w` decimal digits of `n`, leading zeros kept. -/
def digits : Nat → Nat → List Char
  | 0, _ => []
  | w + 1, n => digits w (n / 10) ++ [Nat.digitChar (n % 10)]

def yearText (y : Int) : List Char :=
  if 0 ≤ y ∧ y ≤ 9999 then digits 4 y.toNat
  else (if y < 0 then '-' else '+') :: digits 6 y.natAbs

def dateText (day : Int) : List Char :=
  match civil day with
  | (y, m, d) => yearText y ++ '-' :: digits 2 m.toNat ++ '-' :: digits 2 d.toNat

def clockText (ms : Nat) : List Char :=
  digits 2 (ms / 3600000) ++ ':' :: digits 2 (ms / 60000 % 60)
    ++ ':' :: digits 2 (ms / 1000 % 60) ++ '.' :: digits 3 (ms % 1000)

def toISOString (t : Instant) : String :=
  String.ofList (dateText (t / MS_PER_DAY)
    ++ 'T' :: clockText (t % MS_PER_DAY).toNat ++ ['Z'])

/-- `date.toISOString().slice(0, 10)`. -/
def toDateOnly (t : Instant) : String :=
  String.ofList ((toISOString t).toList.take 10)

example : toISOString 1787659200000 = "2026-08-25T12:00:00.000Z" := by decide

end InvestApi.Ref
