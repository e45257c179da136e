import InvestApi.Fx.Cache
import InvestApi.Ledger.Alone
import InvestApi.Ledger.Books

/-!
# The rate a checkout freezes

`checkout` reads its rate with a query of its own, the newest row of the
currency, while the other write path asks `getEffectiveRate` for the newest row
not after the booking day. The nightly sync stores tomorrow's row, so the two
queries can see different rows: they agree exactly when the newest row is not in
the future or has the same rate as the row in effect.
-/

namespace InvestApi.Ref

open InvestApi.Pg

/-- What `getEffectiveRate` throws without a rate. -/
def fxRateUnavailable (currency : String) (on : Instant) : ApiError :=
  .problem 422 "fx-rate-unavailable"
    ("no fx rate for " ++ currency ++ " on or before " ++ toDateOnly on)

/-- The call alone on the rows `d`: how it ends, and the rows it leaves. -/
def checkoutAlone (env : Env) (request : CheckoutRequest) (draw : CheckoutDraw)
    (d : LedgerDb) : Finish ApiError LedgerReply × LedgerDb :=
  ((LedgerCall.checkout request draw).body env).alone d []

/-- A checkout that debited an account in `currency` stores, if it commits, the
rate that `getEffectiveRate` gives, and finds none exactly when that finds none. -/
structure FreezesEffectiveRate (env : Env) (request : CheckoutRequest) (draw : CheckoutDraw)
    (d : LedgerDb) (currency : String) : Prop where
  stored : ∀ reply after order, checkoutAlone env request draw d = (.committed reply, after) →
    after.get (.transaction draw.orderId) = some order →
    FxRatesService.getEffectiveRate env.fxRates env.cache currency draw.now
      = .ok order.fxRate
  rejected : (checkoutAlone env request draw d).1 = .raised (.checkoutRejected .no_fx_rate) ↔
    FxRatesService.getEffectiveRate env.fxRates env.cache currency draw.now
      = .error (fxRateUnavailable currency draw.now)

/-- The newest row of the currency, if it has one, is not after the day of `now`
or has the rate of the row that is in effect then. -/
def NewestInEffect (table : List FxRate) (currency : String) (now : Instant) : Prop :=
  (1 ≤ (civil (now / MS_PER_DAY)).1 ∧ (civil (now / MS_PER_DAY)).1 ≤ 9999) ∧
    ∀ r, firstBy FxRate.latestFirst (table.filter fun r => r.currency = currency) = some r →
      r.rateDate ≤ now / MS_PER_DAY ∨
        ∃ q, IsLatest table currency (now / MS_PER_DAY) q ∧ q.rate = r.rate

section Alone

variable {env : Env} {request : CheckoutRequest} {draw : CheckoutDraw} {d : LedgerDb}
  {u : Uuid} {row : AccountRow} {cost : Int}

/-- Without a rate a checkout that debited its account is rejected. -/
theorem checkoutAlone_unpriced (h : Debits request u row cost)
    (hrow : d.get (.account u) = some row) (hrate : rateOf env row.currency = none) :
    checkoutAlone env request draw d = (.raised (.checkoutRejected .no_fx_rate), d) :=
  alone_stopped h hrow (.rate hrate)

/-- With a rate it commits an order with that rate, or fails for another
reason. -/
theorem checkoutAlone_priced (h : Debits request u row cost)
    (hrow : d.get (.account u) = some row) {rate : Numeric}
    (hrate : rateOf env row.currency = some rate) :
    (∃ code, (checkoutAlone env request draw d).1 = .raised (.db code)) ∨
      (checkoutAlone env request draw d).1 = .aborted ∨
      ∃ reply after order, checkoutAlone env request draw d = (.committed reply, after) ∧
        after.get (.transaction draw.orderId) = some order ∧ order.fxRate = rate := by
  have hcur : (debited row cost).currency = row.currency := rfl
  have hexec := @exec_checkout env request draw d h.quantity
  rw [exec_debitAccount h hrow, exec_resolveFxRate, hcur, hrate] at hexec
  simp only [Checkout.insertOrder, Checkout.insertJob, Prog.bind_eq, h.account] at hexec
  rcases uuidParam_value request.instrumentId with ⟨i, hi⟩ | ⟨e, he⟩
  swap
  · obtain ⟨code, rfl⟩ := uuidParam_raise he
    refine Or.inl ⟨code, ?_⟩
    rw [checkoutAlone, Prog.alone, hexec, he]
    rfl
  rcases bigintParam_value (request.quantity * 1000000) with ⟨q, hq⟩ | ⟨e, he⟩
  swap
  · obtain ⟨code, rfl⟩ := bigintParam_raise he
    refine Or.inl ⟨code, ?_⟩
    rw [checkoutAlone, Prog.alone, hexec, hi, h.cost_eq, he]
    rfl
  simp only [hi, h.cost_eq, hq, Prog.bind, Prog.exec, Option.map_none] at hexec
  split at hexec
  · split at hexec
    · refine Or.inr (Or.inr ⟨_, _, Checkout.orderRow u i row.currency cost rate q request
        draw.now, by rw [checkoutAlone, Prog.alone, hexec], ?_, rfl⟩)
      simp
    · exact Or.inr (Or.inl (by rw [checkoutAlone, Prog.alone, hexec]))
  · exact Or.inr (Or.inl (by rw [checkoutAlone, Prog.alone, hexec]))

/-- With a rate the two agree exactly when `getEffectiveRate` gives that one. -/
theorem freezes_priced (h : Debits request u row cost)
    (hrow : d.get (.account u) = some row) {rate : Numeric}
    (hrate : rateOf env row.currency = some rate)
    (hend : (∃ reply, (checkoutAlone env request draw d).1 = .committed reply) ∨
      (checkoutAlone env request draw d).1 = .raised (.checkoutRejected .no_fx_rate)) :
    FreezesEffectiveRate env request draw d row.currency ↔
      FxRatesService.getEffectiveRate env.fxRates env.cache row.currency draw.now
        = .ok rate := by
  rcases @checkoutAlone_priced _ _ draw _ _ _ _ h hrow _ hrate with
    ⟨code, hout⟩ | hout | ⟨reply, after, order, hout, horder, hfx⟩
  · rw [hout] at hend
    simp at hend
  · rw [hout] at hend
    simp at hend
  · constructor
    · intro hf
      rw [hf.stored reply after order hout horder, hfx]
    · intro heff
      refine ⟨fun reply' after' order' hout' horder' => ?_, ?_⟩
      · obtain ⟨-, rfl⟩ := Prod.mk.inj (hout.symm.trans hout')
        obtain rfl := Option.some.inj (horder.symm.trans horder')
        rw [heff, hfx]
      · rw [hout, heff]
        simp

/-- Without one, exactly when it finds none either. -/
theorem freezes_unpriced (h : Debits request u row cost)
    (hrow : d.get (.account u) = some row) (hrate : rateOf env row.currency = none) :
    FreezesEffectiveRate env request draw d row.currency ↔
      FxRatesService.getEffectiveRate env.fxRates env.cache row.currency draw.now
        = .error (fxRateUnavailable row.currency draw.now) := by
  have hout := @checkoutAlone_unpriced _ _ draw _ _ _ _ h hrow hrate
  constructor
  · intro hf
    exact hf.rejected.mp (by rw [hout])
  · intro heff
    refine ⟨fun reply after order hcommit => ?_, fun _ => heff, fun _ => by rw [hout]⟩
    rw [hout] at hcommit
    simp at hcommit

end Alone

section Effective

variable {T₀ : FxTable} {T : FxRows} {env : Env} {currency : String} {now : Instant}
  {day : Int}

/-- On a day Postgres reads, the rate is that of the row in effect. -/
theorem getEffectiveRate_day (h : T₀.GrowsTo T) (hc : currency ≠ "UAH")
    (hday : now / MS_PER_DAY = day) (hyear : 1 ≤ (civil day).1 ∧ (civil day).1 ≤ 9999) :
    FxRatesService.getEffectiveRate T.rows
        (FxRateCache.load (FxRateRepository.findAllEffective T₀.rows)) currency now
      = match firstBy FxRate.latestFirst
          (T.rows.filter fun r => r.currency = currency ∧ r.rateDate ≤ day) with
        | none => .error (fxRateUnavailable currency now)
        | some row => .ok row.rate := by
  rw [FxRatesService.getEffectiveRate, if_neg hc, h.findLatest hday hyear]
  cases firstBy FxRate.latestFirst
      (T.rows.filter fun r => r.currency = currency ∧ r.rateDate ≤ day) with
  | none => rfl
  | some r => rfl

/-- On any other it is an error of the database. -/
theorem getEffectiveRate_far (hc : currency ≠ "UAH") {table : List FxRate}
    (hday : now / MS_PER_DAY = day) (hyear : ¬ (1 ≤ (civil day).1 ∧ (civil day).1 ≤ 9999)) :
    FxRatesService.getEffectiveRate table
        (FxRateCache.load (FxRateRepository.findAllEffective T₀.rows)) currency now
      = .error (.db "22008") := by
  rw [FxRatesService.getEffectiveRate, if_neg hc, FxRatesService.findLatest,
    T₀.misses_far hday hyear, findLatest_far hday hyear]
  rfl

/-- The newest row of all, if it is not after the day, is the one in effect. -/
theorem isLatest_of_newest {r : FxRate}
    (h : firstBy FxRate.latestFirst (T.rows.filter fun r => r.currency = currency) = some r)
    (hle : r.rateDate ≤ day) : IsLatest T.rows currency day r := by
  obtain ⟨hmem, hfirst⟩ := firstBy_spec latestFirst_total latestFirst_trans h
  rw [List.mem_filter, decide_eq_true_eq] at hmem
  refine ⟨hmem.1, hmem.2, hle, fun q hq hqc _ => ?_⟩
  have hq' := hfirst q (List.mem_filter.mpr ⟨hq, by simp [hqc]⟩)
  simpa only [FxRate.latestFirst, decide_eq_true_eq] using hq'

/-- The newest row has the rate in effect: the condition, read off the two
queries. -/
theorem newestInEffect_iff (hday : now / MS_PER_DAY = day)
    (hyear : 1 ≤ (civil day).1 ∧ (civil day).1 ≤ 9999) :
    NewestInEffect T.rows currency now ↔ ∀ r,
      firstBy FxRate.latestFirst (T.rows.filter fun r => r.currency = currency) = some r →
      ∃ q, firstBy FxRate.latestFirst
          (T.rows.filter fun r => r.currency = currency ∧ r.rateDate ≤ day) = some q ∧
        q.rate = r.rate := by
  rw [NewestInEffect, hday]
  constructor
  · rintro ⟨_, h⟩ r hr
    rcases h r hr with hle | ⟨q, hq, hrate⟩
    · exact ⟨r, firstBy_eq_some (isLatest_of_newest hr hle), rfl⟩
    · exact ⟨q, firstBy_eq_some hq, hrate⟩
  · intro h
    refine ⟨hyear, fun r hr => ?_⟩
    obtain ⟨q, hq, hrate⟩ := h r hr
    exact Or.inr ⟨q, firstBy_latest hq, hrate⟩

end Effective

/-- When the two write paths freeze one rate. The cache is that of any table
this one has grown from, the empty one included; the checkout is one that gets
past its debit and then stores an order or finds no rate. -/
theorem checkout_rate_iff {T₀ : FxTable} {T : FxRows} {env : Env} (hgrows : T₀.GrowsTo T)
    (hrates : env.fxRates = T.rows)
    (hcache : env.cache = FxRateCache.load (FxRateRepository.findAllEffective T₀.rows))
    {request : CheckoutRequest} {draw : CheckoutDraw} {d : LedgerDb} {u : Uuid}
    {row : AccountRow} {cost : Int} (h : Debits request u row cost)
    (hrow : d.get (.account u) = some row)
    (hend : (∃ reply, (checkoutAlone env request draw d).1 = .committed reply) ∨
      (checkoutAlone env request draw d).1 = .raised (.checkoutRejected .no_fx_rate)) :
    FreezesEffectiveRate env request draw d row.currency ↔
      row.currency = "UAH" ∨ NewestInEffect T.rows row.currency draw.now := by
  by_cases hc : row.currency = "UAH"
  · have hrate : rateOf env row.currency = some Numeric.one := by rw [rateOf, if_pos hc]
    have heff : FxRatesService.getEffectiveRate env.fxRates env.cache row.currency draw.now
        = .ok Numeric.one := by rw [FxRatesService.getEffectiveRate, if_pos hc]
    rw [freezes_priced h hrow hrate hend]
    exact ⟨fun _ => Or.inl hc, fun _ => heff⟩
  have hnewest : rateOf env row.currency
      = (firstBy FxRate.latestFirst (T.rows.filter fun r => r.currency = row.currency)).map
          (·.rate) := by
    rw [rateOf, if_neg hc, Checkout.latestRate, hrates]
  obtain ⟨day, hday⟩ : ∃ day, draw.now / MS_PER_DAY = day := ⟨_, rfl⟩
  by_cases hyear : 1 ≤ (civil day).1 ∧ (civil day).1 ≤ 9999
  · have heff := getEffectiveRate_day hgrows hc hday hyear
    rw [← hrates, ← hcache] at heff
    rw [newestInEffect_iff hday hyear]
    cases hr : firstBy FxRate.latestFirst (T.rows.filter fun r => r.currency = row.currency) with
    | none =>
        rw [hr] at hnewest
        have hall := firstBy_eq_none.mp hr
        have hnone : T.rows.filter (fun r => r.currency = row.currency ∧ r.rateDate ≤ day)
            = [] := by
          rw [List.filter_eq_nil_iff] at hall ⊢
          intro q hq hq'
          exact hall q hq (by simpa using (of_decide_eq_true hq').1)
        rw [freezes_unpriced h hrow hnewest, heff, hrates, hnone]
        exact ⟨fun _ => Or.inr (by simp), fun _ => rfl⟩
    | some r =>
        rw [hr] at hnewest
        rw [freezes_priced h hrow hnewest hend, heff, hrates]
        constructor
        · intro hrate
          refine Or.inr fun r' hr' => ?_
          obtain rfl := Option.some.inj hr'
          split at hrate
          · simp at hrate
          · next q hq => exact ⟨q, hq, Except.ok.inj hrate⟩
        · intro hor
          obtain ⟨q, hq, hqr⟩ := hor.resolve_left hc r rfl
          rw [hq]
          exact congrArg Except.ok hqr
  · have heff := @getEffectiveRate_far T₀ _ _ _ hc env.fxRates hday hyear
    rw [← hcache] at heff
    have hnot : ¬ (row.currency = "UAH" ∨ NewestInEffect T.rows row.currency draw.now) := by
      rintro (h | ⟨hy, _⟩)
      · exact hc h
      · rw [hday] at hy
        exact hyear hy
    refine ⟨fun hf => ?_, fun h => absurd h hnot⟩
    cases hrate : rateOf env row.currency with
    | none =>
        rw [freezes_unpriced h hrow hrate, heff] at hf
        simp [fxRateUnavailable] at hf
    | some rate =>
        rw [freezes_priced h hrow hrate hend, heff] at hf
        simp at hf

/-! A purchase at noon, the next day's rate already stored. -/

def noon : Instant := daysFromCivil 2026 9 2 * MS_PER_DAY + 43200000

def quotedEnv (T : FxTable) : Env :=
  { sampleEnv with
    currencies := ["UAH", "USD"]
    fxRates := T.rows
    cache := FxRateCache.load (FxRateRepository.findAllEffective T.rows) }

def dollarDb : LedgerDb :=
  Db.empty.set (.account 7) (some ⟨1, "USD", "cash", .cash, 300, false, 0⟩)

def dollarRequest : CheckoutRequest := ⟨Uuid.text 7, Uuid.text 5, 1, 100, none⟩

def todaysRates : FxTable where
  rows := [rateOn 2026 9 2 "nbu" 410000000000]
  key := by decide +kernel
  dated := by decide +kernel

def tomorrowsRates : FxTable where
  rows := rateOn 2026 9 3 "nbu" 420000000000 :: todaysRates.rows
  key := by decide +kernel
  dated := by decide +kernel

theorem dollarDebit : Debits dollarRequest 7 ⟨1, "USD", "cash", .cash, 300, false, 0⟩ 100 where
  quantity := by decide +kernel
  account := uuidParam_eq_ret.mpr (pgUuidIn_text 7)
  cost_eq := by
    have hx : Checkout.sentCost dollarRequest = 100 := by decide +kernel
    rw [hx]
    rfl
  enough := by decide
  fits := by decide

/-- The order is booked today and keeps tomorrow's rate. -/
theorem checkout_freezes_tomorrow :
    ¬ FreezesEffectiveRate (quotedEnv tomorrowsRates) dollarRequest ⟨30, 40, noon⟩ dollarDb
      "USD" := by
  intro h
  have hrate : rateOf (quotedEnv tomorrowsRates) "USD" = some ⟨420000000000⟩ := by
    decide +kernel
  have hcommit : (checkoutAlone (quotedEnv tomorrowsRates) dollarRequest ⟨30, 40, noon⟩
      dollarDb).1 = .committed (.checkout ⟨30, 40, 200, 100, "USD"⟩) := by decide +kernel
  have heff := (freezes_priced dollarDebit (Db.get_set_self ..) hrate
    (Or.inl ⟨_, hcommit⟩)).mp h
  have hother : (FxRatesService.getEffectiveRate (quotedEnv tomorrowsRates).fxRates
      (quotedEnv tomorrowsRates).cache "USD" noon).toOption = some ⟨410000000000⟩ := by
    decide +kernel
  rw [show (⟨1, "USD", "cash", .cash, 300, false, 0⟩ : AccountRow).currency = "USD" from rfl,
    show (⟨30, 40, noon⟩ : CheckoutDraw).now = noon from rfl] at heff
  rw [heff] at hother
  exact absurd hother (by decide)

theorem checkout_rate_sample :
    FreezesEffectiveRate (quotedEnv todaysRates) dollarRequest ⟨30, 40, noon⟩ dollarDb "USD" ↔
      "USD" = "UAH" ∨ NewestInEffect todaysRates.rows "USD" noon := by
  have hcommit : (checkoutAlone (quotedEnv todaysRates) dollarRequest ⟨30, 40, noon⟩
      dollarDb).1 = .committed (.checkout ⟨30, 40, 200, 100, "USD"⟩) := by decide +kernel
  exact checkout_rate_iff (.refl todaysRates) rfl rfl dollarDebit (Db.get_set_self ..)
    (Or.inl ⟨_, hcommit⟩)

end InvestApi.Ref
