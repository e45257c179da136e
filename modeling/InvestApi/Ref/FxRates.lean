import Mathlib.Data.Prod.Lex
import Mathlib.Data.String.Basic
import InvestApi.Pg.DistinctOn
import InvestApi.Ref.Domain

/-!
# Exchange rates

`src/fx-rates`: the table's lookup, the in-process cache with its binary
search over text dates, and the service that asks the cache first. The
`rate_date` column is a calendar day, kept as its number since 1970-01-01;
the cache holds days as the text `to_char` makes of them.
-/

namespace InvestApi.Ref

open InvestApi.Pg

/-- One row of `fx_rate`; `rate` is the generated column. -/
structure FxRate where
  currency : String
  rateDate : Int
  source : String
  rate : Numeric
  deriving DecidableEq, Repr

structure CachedFxRate where
  rateDate : String
  rate : Numeric
  source : String
  deriving DecidableEq, Repr

def daysFromCivil (y m d : Int) : Int :=
  let y := if m ≤ 2 then y - 1 else y
  let doy := (153 * (if m > 2 then m - 3 else m + 9) + 2) / 5 + d - 1
  let doe := (y % 400) * 365 + (y % 400) / 4 - (y % 400) / 100 + doy
  y / 400 * 146097 + doe - 719468

def digitsValue (cs : List Char) : Option Nat :=
  if cs.all Char.isDigit then
    some (cs.foldl (fun a c => a * 10 + (c.toNat - '0'.toNat)) 0)
  else none

/-- Postgres' reading of a `YYYY-MM-DD` text as a date. It has no year 0. -/
def pgDateIn (s : String) : Option Int :=
  match s.toList with
  | [y₁, y₂, y₃, y₄, '-', m₁, m₂, '-', d₁, d₂] =>
      match digitsValue [y₁, y₂, y₃, y₄], digitsValue [m₁, m₂],
        digitsValue [d₁, d₂] with
      | some y, some m, some d =>
          if y ≠ 0 ∧ civil (daysFromCivil y m d) = ((y : Int), (m : Int), (d : Int))
          then some (daysFromCivil y m d) else none
      | _, _, _ => none
  | _ => none

/-- The year as Postgres prints it: at least four digits. There is no year 0,
and a year BC goes by its number. -/
def pgYearText (y : Int) : List Char :=
  let year := if 0 < y then y.toNat else (1 - y).toNat
  if year ≤ 9999 then digits 4 year else Nat.toDigits 10 year

/-- `to_char(day, 'YYYY-MM-DD')`, from the year 1 on also the text the driver hands
out. -/
def toChar (day : Int) : String :=
  match civil day with
  | (y, m, d) =>
      String.ofList (pgYearText y ++ '-' :: digits 2 m.toNat ++ '-' :: digits 2 d.toNat)

/-- The first row in the order `before`, as ORDER BY … LIMIT 1 picks it. -/
def firstBy {α : Type} (before : α → α → Bool) : List α → Option α
  | [] => none
  | a :: as =>
      match firstBy before as with
      | none => some a
      | some b => if before a b then some a else some b

/-- ORDER BY rate_date DESC, source ASC. -/
def FxRate.latestFirst (a b : FxRate) : Bool :=
  decide (b.rateDate < a.rateDate ∨ (a.rateDate = b.rateDate ∧ a.source ≤ b.source))

def FxRate.day (r : FxRate) : String ×ₗ Int := toLex (r.currency, r.rateDate)

def FxRate.sortKey (r : FxRate) : String ×ₗ Int ×ₗ String :=
  toLex (r.currency, toLex (r.rateDate, r.source))

namespace FxRateRepository

def findLatest (table : List FxRate) (currency : String) (onOrBefore : Instant) :
    Except ApiError (Option FxRate) :=
  match pgDateIn (toDateOnly onOrBefore) with
  | none => .error (.db "22008")
  | some day =>
      .ok (firstBy FxRate.latestFirst
        (table.filter fun r => r.currency = currency ∧ r.rateDate ≤ day))

/-- SELECT DISTINCT ON (currency, rate_date) … ORDER BY currency, rate_date,
source ASC. -/
def findAllEffective (table : List FxRate) : List (String × CachedFxRate) :=
  (distinctOn FxRate.day FxRate.sortKey table).map fun r =>
    (r.currency, ⟨toChar r.rateDate, r.rate, r.source⟩)

end FxRateRepository

def fxRateKey (currency : String) (on : Instant) : String :=
  currency ++ ":" ++ toDateOnly on

/-- Per currency, its series by date ascending. -/
abbrev FxRateCache := List (String × List CachedFxRate)

namespace FxRateCache

def push (currency : String) (row : CachedFxRate) : FxRateCache → FxRateCache
  | [] => [(currency, [row])]
  | (c, series) :: rest =>
      if c = currency then (c, series ++ [row]) :: rest
      else (c, series) :: push currency row rest

def load (rows : List (String × CachedFxRate)) : FxRateCache :=
  rows.foldl (fun next r => push r.1 r.2 next) []

/-- The binary search: rightmost index with `rateDate ≤ onDate`, or -1. -/
def search (series : List CachedFxRate) (onDate : String) :
    Nat → Int → Int → Int → Int
  | 0, _, _, found => found
  | fuel + 1, lo, hi, found =>
      if lo ≤ hi then
        let mid := (lo + hi) / 2
        match series[mid.toNat]? with
        | none => found
        | some row =>
            if row.rateDate ≤ onDate then search series onDate fuel (mid + 1) hi mid
            else search series onDate fuel lo (mid - 1) found
      else found

def findLatest (cache : FxRateCache) (currency onDate : String) :
    Option CachedFxRate :=
  match cache.lookup currency with
  | none => none
  | some series =>
      match series.getLast? with
      | none => none
      | some last =>
          if onDate > last.rateDate then none
          else
            let found := search series onDate (series.length + 1) 0
              (series.length - 1) (-1)
            if found = -1 then none else series[found.toNat]?

end FxRateCache

namespace FxRatesService

variable (table : List FxRate) (cache : FxRateCache)

def findLatest (currency : String) (on : Instant) :
    Except ApiError (Option CachedFxRate) :=
  match cache.findLatest currency (toDateOnly on) with
  | some row => .ok (some row)
  | none =>
      (FxRateRepository.findLatest table currency on).map fun row =>
        row.map fun r => ⟨toChar r.rateDate, r.rate, r.source⟩

def getEffectiveRate (currency : String) (on : Instant) :
    Except ApiError Numeric :=
  if currency = "UAH" then .ok Numeric.one
  else
    match findLatest table cache currency on with
    | .error e => .error e
    | .ok none =>
        .error (.problem 422 "fx-rate-unavailable"
          ("no fx rate for " ++ currency ++ " on or before " ++ toDateOnly on))
    | .ok (some row) => .ok row.rate

/-- The distinct pairs by key, a later pair replacing an earlier one. -/
def uniquePairs (pairs : List (String × Instant)) :
    List (String × (String × Instant)) :=
  pairs.foldl (fun unique pair =>
    let key := fxRateKey pair.1 pair.2
    if unique.any (fun u => u.1 = key) then
      unique.map fun u => if u.1 = key then (key, pair) else u
    else unique ++ [(key, pair)]) []

def getEffectiveRates (pairs : List (String × Instant)) :
    Except ApiError (List (String × Numeric)) :=
  (uniquePairs pairs).mapM fun (key, pair) =>
    (getEffectiveRate table cache pair.1 pair.2).map fun rate => (key, rate)

end FxRatesService

end InvestApi.Ref
