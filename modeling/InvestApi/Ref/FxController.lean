import InvestApi.Ref.FxRates

/-!
# The rates endpoint

`GET /fx-rates/:currency/latest`: the read path of FxRatesService and the
`Cache-Control` label FxRatesController puts on the answer. Nothing else of the
response depends on the clock, which the handler reads twice.
-/

namespace InvestApi.Ref

/-- `numeric(20,10)` as text, all ten decimals. -/
def Numeric.text (n : Numeric) : String :=
  String.ofList ((if n.scaled < 0 then ['-'] else [])
    ++ Nat.toDigits 10 (n.scaled.natAbs / 10 ^ 10)
    ++ '.' :: digits 10 (n.scaled.natAbs % 10 ^ 10))

structure EffectiveFxRate where
  currency : String
  rate : String
  rateDate : String
  source : String
  deriving DecidableEq, Repr

structure FxRateDto where
  currency : String
  rate : String
  rate_date : String
  source : String
  deriving DecidableEq, Repr

/-- The read path: a missing rate is a 404 here. -/
def FxRatesService.getLatest (table : List FxRate) (cache : FxRateCache)
    (currency : String) (on : Instant) : Except ApiError EffectiveFxRate :=
  if currency = "UAH" then .ok ⟨currency, "1", toDateOnly on, "base"⟩
  else
    match findLatest table cache currency on with
    | .error e => .error e
    | .ok none =>
        .error (.problem 404 "fx-rate-not-found"
          ("no fx rate for " ++ currency ++ " on or before " ++ toDateOnly on))
    | .ok (some row) => .ok ⟨currency, row.rate.text, row.rateDate, row.source⟩

/-- A request the DTOs let through. -/
structure FxRateRequest where
  currency : String
  on : Option String
  /-- The clock when the handler starts, and when it labels the answer. -/
  asked : Instant
  answered : Instant

structure FxRateResponse where
  cacheControl : String
  body : Except ApiError FxRateDto
  deriving DecidableEq

namespace FxRatesController

def PAST_DAY_MAX_AGE_SECONDS : Nat := 24 * 60 * 60

def TODAY_MAX_AGE_SECONDS : Nat := 60

def toFxRateDto (rate : EffectiveFxRate) : FxRateDto :=
  ⟨rate.currency, rate.rate, rate.rateDate, rate.source⟩

def cacheControlFor (on now : Instant) : String :=
  "public, max-age=" ++ toString
    (if toDateOnly on < toDateOnly now then PAST_DAY_MAX_AGE_SECONDS else TODAY_MAX_AGE_SECONDS)

/-- `query.on ? new Date(query.on) : new Date()`. -/
def onDate (newDate : String → Option Instant) (r : FxRateRequest) : Option Instant :=
  match r.on with
  | none => some r.asked
  | some text => newDate text

/-- An error keeps the label that was set first. -/
def getLatest (newDate : String → Option Instant) (table : List FxRate)
    (cache : FxRateCache) (r : FxRateRequest) : FxRateResponse :=
  match onDate newDate r with
  | none => ⟨"no-store", .error (.error "Invalid time value")⟩
  | some on =>
      match FxRatesService.getLatest table cache r.currency on with
      | .error e => ⟨"no-store", .error e⟩
      | .ok rate => ⟨cacheControlFor on r.answered, .ok (toFxRateDto rate)⟩

end FxRatesController

example : (⟨416000000000⟩ : Numeric).text = "41.6000000000" := by decide +kernel

end InvestApi.Ref
