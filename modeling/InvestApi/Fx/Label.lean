import InvestApi.Fx.Cache
import InvestApi.Ref.FxController

/-!
# How long an answer may be kept

The label of `GET /fx-rates/:currency/latest` looks at the calendar alone: a day
before today is closed. The answer looks at rows, those the process loaded at its
start for a day they surround and the table's own for any other, and the last day
stored there may be an earlier one. So the answer changes exactly when the two tables
that answer, the first time and the second, differ in that day's row.

Where no row has been corrected that is a matter of days: one table has a day between
the last of the other and the day asked for. With caches as fresh as the table it is a
further day stored in the gap, and the answers that no further day can change are those
whose own day is stored.
-/

namespace InvestApi.Ref

open FxRatesController

/-- `later` is `T` with further days of a currency stored, none corrected. -/
def FxRows.StoresDays (T later : FxRows) : Prop :=
  (∀ r ∈ T.rows, r ∈ later.rows) ∧
    ∀ r ∈ later.rows, r ∉ T.rows → ∀ q ∈ T.rows, q.day ≠ r.day

theorem FxRows.StoresDays.refl (T : FxRows) : T.StoresDays T :=
  ⟨fun _ hr => hr, fun _ hr hnew => absurd hr hnew⟩

/-- Of the days of `later` not after `day`, `T` has one as late as any. -/
def FxRows.Reaches (T later : FxRows) (currency : String) (day : Int) : Prop :=
  ∀ q ∈ later.rows, q.currency = currency → q.rateDate ≤ day →
    ∃ p ∈ T.rows, p.currency = currency ∧ q.rateDate ≤ p.rateDate ∧ p.rateDate ≤ day

theorem FxRows.reaches_of_subset {T later : FxRows} (h : ∀ r ∈ later.rows, r ∈ T.rows)
    (currency : String) (day : Int) : T.Reaches later currency day :=
  fun q hq hc hle => ⟨q, h q hq, hc, le_refl _, hle⟩

/-- Rows of the years from 1 on, whose days the driver hands out as `to_char` writes
them. -/
structure FxDays extends FxRows where
  anno : ∀ r ∈ rows, 1 ≤ (civil r.rateDate).1

def FxTable.days (T : FxTable) : FxDays := ⟨T.toFxRows, fun r hr => (T.dated r hr).1⟩

/-- The day a request asks about. -/
def FxRateRequest.day (newDate : String → Option Instant) (r : FxRateRequest) : Option Int :=
  (onDate newDate r).map (· / MS_PER_DAY)

/-! ## Texts of a day -/

theorem toDateOnly_congr {t t' : Instant} (h : t / MS_PER_DAY = t' / MS_PER_DAY) :
    toDateOnly t = toDateOnly t' := by
  by_cases hdated : Dated (t / MS_PER_DAY)
  · rw [toDateOnly_dated hdated, toDateOnly_dated (h ▸ hdated), h]
  · refine String.toList_inj.mp ?_
    rw [toDateOnly_far hdated, toDateOnly_far (h ▸ hdated), h]

theorem toChar_inj {n n' : Int} (hn : 1 ≤ (civil n).1 ∧ (civil n).1 ≤ 9999)
    (hn' : 1 ≤ (civil n').1 ∧ (civil n').1 ≤ 9999) (h : toChar n = toChar n') : n = n' := by
  rw [toChar_dated hn, toChar_dated hn'] at h
  have hd : Dated n := ⟨by omega, hn.2⟩
  have hd' : Dated n' := ⟨by omega, hn'.2⟩
  have hle := (dateText_le_iff hd hd').mp (le_of_eq h)
  have hge := (dateText_le_iff hd' hd).mp (le_of_eq h.symm)
  omega

theorem digits_inj {w n n' : Nat} (hn : n < 10 ^ w) (hn' : n' < 10 ^ w)
    (h : digits w n = digits w n') : n = n' := by
  have hvalue := digitsValue_digits hn
  rw [h, digitsValue_digits hn'] at hvalue
  exact (Option.some.inj hvalue).symm

theorem toDigits_ten_inj {n n' : Nat} (h : Nat.toDigits 10 n = Nat.toDigits 10 n') : n = n' := by
  rw [← @Nat.ofDigitChars_ten_toDigits n, h, Nat.ofDigitChars_ten_toDigits]

/-- Ten decimals say which number it is. -/
theorem Numeric.text_inj {n n' : Numeric} (h : n.text = n'.text) : n = n' := by
  have hlist := String.ofList_injective h
  have hlen : ∀ k, ('.' :: digits 10 k).length = 11 := fun k => by simp
  obtain ⟨hwhole, hpart⟩ := List.append_inj' hlist ((hlen _).trans (hlen _).symm)
  have hfraction : n.scaled.natAbs % 10 ^ 10 = n'.scaled.natAbs % 10 ^ 10 :=
    digits_inj (Nat.mod_lt _ (by decide)) (Nat.mod_lt _ (by decide)) (List.cons.inj hpart).2
  have hminus : ∀ k, '-' ∉ Nat.toDigits 10 k := fun k hmem =>
    absurd (Nat.isDigit_of_mem_toDigits (by decide) (by decide) hmem) (by decide)
  -- The whole parts agree, and so do the signs.
  have hsame : n.scaled.natAbs / 10 ^ 10 = n'.scaled.natAbs / 10 ^ 10 ∧
      (n.scaled < 0 ↔ n'.scaled < 0) := by
    by_cases hneg : n.scaled < 0
    · by_cases hneg' : n'.scaled < 0
      · rw [if_pos hneg, if_pos hneg'] at hwhole
        exact ⟨toDigits_ten_inj (List.cons.inj hwhole).2, iff_of_true hneg hneg'⟩
      · rw [if_pos hneg, if_neg hneg', List.nil_append] at hwhole
        have hmem : '-' ∈ ['-'] ++ Nat.toDigits 10 (n.scaled.natAbs / 10 ^ 10) := by simp
        rw [hwhole] at hmem
        exact absurd hmem (hminus _)
    · by_cases hneg' : n'.scaled < 0
      · rw [if_neg hneg, if_pos hneg', List.nil_append] at hwhole
        have hmem : '-' ∈ ['-'] ++ Nat.toDigits 10 (n'.scaled.natAbs / 10 ^ 10) := by simp
        rw [← hwhole] at hmem
        exact absurd hmem (hminus _)
      · rw [if_neg hneg, if_neg hneg'] at hwhole
        exact ⟨toDigits_ten_inj hwhole, iff_of_false hneg hneg'⟩
  have habs : n.scaled.natAbs = n'.scaled.natAbs := by
    rw [← Nat.div_add_mod n.scaled.natAbs (10 ^ 10), hsame.1, hfraction, Nat.div_add_mod]
  have hscaled : n.scaled = n'.scaled := by omega
  cases n
  cases n'
  exact congrArg Numeric.mk hscaled

/-! ## The answer -/

variable {T₀ T₀' : FxTable} {T T' : FxDays} {currency : String} {on : Instant} {day : Int}

/-- What the endpoint serves of a stored row. -/
def FxRate.effective (r : FxRate) : EffectiveFxRate :=
  ⟨r.currency, r.rate.text, toChar r.rateDate, r.source⟩

theorem getLatest_base {table : List FxRate} {cache : FxRateCache} :
    FxRatesService.getLatest table cache "UAH" on
      = .ok ⟨"UAH", "1", toDateOnly on, "base"⟩ := by
  rw [FxRatesService.getLatest, if_pos rfl]

/-- A rate is served exactly when it is the latest row, for a day Postgres reads, of the
table that answers. -/
theorem getLatest_ok_iff (hc : currency ≠ "UAH") (hday : on / MS_PER_DAY = day)
    {rate : EffectiveFxRate} (hyear : 1 ≤ (civil day).1 ∧ (civil day).1 ≤ 9999) :
    FxRatesService.getLatest T.rows
        (FxRateCache.load (FxRateRepository.findAllEffective T₀.rows)) currency on = .ok rate ↔
      ∃ p, IsLatest (T₀.answering T.toFxRows currency day).rows currency day p ∧
        rate = p.effective := by
  rw [FxRatesService.getLatest, if_neg hc, findLatest_answering hday hyear]
  constructor
  · intro hok
    cases hrow : firstBy FxRate.latestFirst
        ((T₀.answering T.toFxRows currency day).rows.filter fun r =>
          r.currency = currency ∧ r.rateDate ≤ day) with
    | none =>
        rw [hrow] at hok
        cases hok
    | some p =>
        rw [hrow] at hok
        have hp := firstBy_latest hrow
        refine ⟨p, hp, ?_⟩
        obtain rfl := Except.ok.inj hok
        rw [FxRate.effective, hp.currency_eq]
        rfl
  · rintro ⟨p, hp, rfl⟩
    rw [firstBy_eq_some hp, FxRate.effective, hp.currency_eq]
    rfl

/-- No other day is served a rate. -/
theorem getLatest_far (hc : currency ≠ "UAH") (hday : on / MS_PER_DAY = day)
    {rate : EffectiveFxRate}
    (h : FxRatesService.getLatest T.rows
      (FxRateCache.load (FxRateRepository.findAllEffective T₀.rows)) currency on = .ok rate) :
    1 ≤ (civil day).1 ∧ (civil day).1 ≤ 9999 := by
  by_contra hyear
  rw [FxRatesService.getLatest, if_neg hc, FxRatesService.findLatest,
    T₀.misses_far hday hyear, findLatest_far hday hyear] at h
  cases h

/-- Rows of one currency are served alike only if they are one. -/
theorem effective_inj {p q : FxRate} (hp : 1 ≤ (civil p.rateDate).1 ∧ (civil p.rateDate).1 ≤ 9999)
    (hq : 1 ≤ (civil q.rateDate).1 ∧ (civil q.rateDate).1 ≤ 9999)
    (h : p.effective = q.effective) : p = q := by
  obtain ⟨pc, pd, ps, pr⟩ := p
  obtain ⟨qc, qd, qs, qr⟩ := q
  rw [FxRate.effective, FxRate.effective, EffectiveFxRate.mk.injEq] at h
  obtain ⟨rfl, hrate, hdate, rfl⟩ := h
  obtain rfl := toChar_inj hp hq hdate
  obtain rfl := Numeric.text_inj hrate
  rfl

/-- A row that is served has a day of four digits. -/
theorem dated_answering (hyear : (civil day).1 ≤ 9999) {p : FxRate}
    (hp : IsLatest (T₀.answering T.toFxRows currency day).rows currency day p) :
    1 ≤ (civil p.rateDate).1 ∧ (civil p.rateDate).1 ≤ 9999 := by
  refine ⟨?_, (civil_year_mono hp.le).trans hyear⟩
  have hmem := hp.mem
  rw [FxTable.answering] at hmem
  split at hmem
  · exact (T₀.dated p hmem).1
  · exact T.anno p hmem

/-- One row is the latest of both tables that answer. -/
def SameLatest (S S' : FxRows) (currency : String) (day : Int) : Prop :=
  ∃ p, IsLatest S.rows currency day p ∧ IsLatest S'.rows currency day p

/-- The service's answer, before and after. -/
theorem getLatest_later_iff {on' : Instant} (hday : on / MS_PER_DAY = day)
    (hday' : on' / MS_PER_DAY = day) {rate : EffectiveFxRate}
    (h : FxRatesService.getLatest T.rows
      (FxRateCache.load (FxRateRepository.findAllEffective T₀.rows)) currency on = .ok rate) :
    FxRatesService.getLatest T'.rows
        (FxRateCache.load (FxRateRepository.findAllEffective T₀'.rows)) currency on' = .ok rate ↔
      currency = "UAH" ∨
        SameLatest (T₀.answering T.toFxRows currency day)
          (T₀'.answering T'.toFxRows currency day) currency day := by
  by_cases hc : currency = "UAH"
  · subst hc
    rw [getLatest_base] at h ⊢
    rw [← toDateOnly_congr (hday.trans hday'.symm)]
    exact ⟨fun _ => Or.inl rfl, fun _ => h⟩
  · have hyear := getLatest_far hc hday h
    obtain ⟨p, hp, rfl⟩ := (getLatest_ok_iff hc hday hyear).mp h
    rw [getLatest_ok_iff hc hday' hyear]
    constructor
    · rintro ⟨q, hq, heq⟩
      obtain rfl := effective_inj (dated_answering hyear.2 hp) (dated_answering hyear.2 hq) heq
      exact Or.inr ⟨p, hp, hq⟩
    · intro hsame
      obtain ⟨q, hq, hq'⟩ := hsame.resolve_left hc
      exact ⟨q, hq', by rw [hp.unique hq]⟩

/-! ## Days instead of rows -/

/-- Where neither table is ahead of the other by a day, up to the day asked for, the row
of the last day is one: nothing stored has been corrected. -/
theorem sameLatest_iff {S S' later : FxRows} (hS : S.StoresDays later)
    (hS' : S'.StoresDays later) {p : FxRate} (hp : IsLatest S.rows currency day p) :
    SameLatest S S' currency day ↔ S.Reaches S' currency day ∧ S'.Reaches S currency day := by
  constructor
  · rintro ⟨q, hq, hq'⟩
    refine ⟨fun r hr hc hle => ⟨q, hq.mem, hq.currency_eq, ?_, hq.le⟩,
      fun r hr hc hle => ⟨q, hq'.mem, hq.currency_eq, ?_, hq.le⟩⟩
    · rcases hq'.first r hr hc hle with hlt | ⟨heq, -⟩ <;> omega
    · rcases hq.first r hr hc hle with hlt | ⟨heq, -⟩ <;> omega
  · rintro ⟨hreach, hreach'⟩
    have hbefore : ∀ r ∈ S'.rows, r.currency = currency → r.rateDate ≤ day →
        r.rateDate ≤ p.rateDate := by
      intro r hr hc hle
      obtain ⟨s, hs, hsc, hrs, hsd⟩ := hreach r hr hc hle
      rcases hp.first s hs hsc hsd with hlt | ⟨heq, -⟩ <;> omega
    -- The last day is stored in the other table too, so its rows are.
    obtain ⟨x, hx, hxc, hpx, hxd⟩ := hreach' p hp.mem hp.currency_eq hp.le
    have hxday : x.day = p.day := by
      have hle := hbefore x hx hxc hxd
      rw [FxRate.day, FxRate.day, hxc, hp.currency_eq, show x.rateDate = p.rateDate by omega]
    have hmem : p ∈ S'.rows := by
      by_contra hnew
      exact hS'.2 p (hS.1 p hp.mem) hnew x hx hxday
    refine ⟨p, hp, hmem, hp.currency_eq, hp.le, fun r hr hc hle => ?_⟩
    rcases Int.lt_or_eq_of_le (hbefore r hr hc hle) with hlt | heq
    · exact Or.inl hlt
    · have hold : r ∈ S.rows := by
        by_contra hnew
        refine hS.2 r (hS'.1 r hr) hnew p hp.mem ?_
        rw [FxRate.day, FxRate.day, hc, hp.currency_eq, heq]
      exact hp.first r hold hc hle

theorem answering_storesDays {later : FxRows} (h₀ : T₀.StoresDays later)
    (h : T.StoresDays later) : (T₀.answering T.toFxRows currency day).StoresDays later := by
  rw [FxTable.answering]
  split
  · exact h₀
  · exact h

/-- A cache whose table has only grown answers as the table it has grown to. -/
theorem isLatest_answering (hgrows : T₀.GrowsTo T.toFxRows) (hdated : Dated day)
    {p : FxRate} : IsLatest (T₀.answering T.toFxRows currency day).rows currency day p ↔
      IsLatest T.rows currency day p := by
  rw [FxTable.answering]
  split
  · next hcovers =>
      obtain ⟨row, hrow⟩ := FxTable.cached_of_covers hdated hcovers
      obtain ⟨⟨q, hq, -⟩, -⟩ := FxTable.of_cached hdated hrow
      have hq' := hgrows.isLatest hq hcovers.2
      exact ⟨fun hp => hgrows.isLatest hp hcovers.2, fun hp => hp.unique hq' ▸ hq⟩
  · exact Iff.rfl

/-- Then it is a further day in the gap that makes the difference. -/
theorem sameLatest_grown_iff (hcache : T₀.GrowsTo T.toFxRows)
    (hcache' : T₀'.GrowsTo T'.toFxRows) (hstored : T.StoresDays T'.toFxRows) (hdated : Dated day)
    {p : FxRate} (hp : IsLatest (T₀.answering T.toFxRows currency day).rows currency day p) :
    SameLatest (T₀.answering T.toFxRows currency day)
        (T₀'.answering T'.toFxRows currency day) currency day ↔
      T.Reaches T'.toFxRows currency day := by
  have hback : T'.Reaches T.toFxRows currency day :=
    FxRows.reaches_of_subset hstored.1 currency day
  have hiff := sameLatest_iff hstored (.refl T'.toFxRows)
    ((isLatest_answering hcache hdated).mp hp)
  rw [SameLatest] at hiff ⊢
  simp only [isLatest_answering hcache hdated, isLatest_answering hcache' hdated, hiff]
  exact ⟨fun h => h.1, fun h => ⟨h, hback⟩⟩

/-! ## The label -/

/-- The controller serves what the service finds for the day asked about. -/
theorem controller_ok_iff {newDate : String → Option Instant} {table : List FxRate}
    {cache : FxRateCache} {r : FxRateRequest} {dto : FxRateDto} :
    (getLatest newDate table cache r).body = .ok dto ↔
      ∃ on rate, onDate newDate r = some on ∧
        FxRatesService.getLatest table cache r.currency on = .ok rate ∧
        toFxRateDto rate = dto := by
  rw [getLatest]
  cases onDate newDate r with
  | none => simp
  | some on =>
      cases hrate : FxRatesService.getLatest table cache r.currency on with
      | error e => simp [hrate]
      | ok rate => simp [hrate]

theorem toFxRateDto_inj {a b : EffectiveFxRate} (h : toFxRateDto a = toFxRateDto b) : a = b := by
  cases a
  cases b
  simpa [toFxRateDto] using h

theorem day_eq_some {newDate : String → Option Instant} {r : FxRateRequest} :
    r.day newDate = some day ↔ ∃ on, onDate newDate r = some on ∧ on / MS_PER_DAY = day := by
  rw [FxRateRequest.day, Option.map_eq_some_iff]

/-- An answer labelled as a closed day's is the answer of a later table exactly when
the tables that answer, the first time and the second, have one latest row for the day;
the base currency has none. With nothing corrected since either cache was loaded, when
neither is ahead of the other by a day; with caches no day has been stored behind, when
no further day falls after the last stored one and not after the day asked for. -/
theorem closedDay_label_safe_iff (newDate : String → Option Instant) (T₀ : FxTable) (T : FxDays)
    (T₀' : FxTable) (T' : FxDays) {r r' : FxRateRequest} (hday : r.day newDate = some day)
    (hday' : r'.day newDate = some day) (hcurrency : r'.currency = r.currency) {dto : FxRateDto}
    (h : getLatest newDate T.rows
        (FxRateCache.load (FxRateRepository.findAllEffective T₀.rows)) r
      = ⟨"public, max-age=86400", .ok dto⟩) :
    let S := T₀.answering T.toFxRows r.currency day
    let S' := T₀'.answering T'.toFxRows r.currency day
    let Same := (getLatest newDate T'.rows
      (FxRateCache.load (FxRateRepository.findAllEffective T₀'.rows)) r').body = .ok dto
    (Same ↔ r.currency = "UAH" ∨ SameLatest S S' r.currency day) ∧
      (T₀.StoresDays T'.toFxRows → T.StoresDays T'.toFxRows → T₀'.StoresDays T'.toFxRows →
        (Same ↔ r.currency = "UAH" ∨
          S.Reaches S' r.currency day ∧ S'.Reaches S r.currency day)) ∧
      (T₀.GrowsTo T.toFxRows → T₀'.GrowsTo T'.toFxRows → T.StoresDays T'.toFxRows →
        (Same ↔ r.currency = "UAH" ∨ T.Reaches T'.toFxRows r.currency day)) := by
  intro S S' Same
  obtain ⟨on, hon, hd⟩ := day_eq_some.mp hday
  obtain ⟨on', hon', hd'⟩ := day_eq_some.mp hday'
  have hbody := congrArg FxRateResponse.body h
  obtain ⟨on₁, rate, hon₁, hrate, hdto⟩ := controller_ok_iff.mp hbody
  obtain rfl := Option.some.inj (hon.symm.trans hon₁)
  have hsame : Same ↔ r.currency = "UAH" ∨ SameLatest S S' r.currency day := by
    show (getLatest newDate T'.rows _ r').body = .ok dto ↔ _
    rw [controller_ok_iff, ← getLatest_later_iff hd hd' hrate]
    constructor
    · rintro ⟨on₂, rate', hon₂, hrate', hdto'⟩
      obtain rfl := Option.some.inj (hon'.symm.trans hon₂)
      rw [← toFxRateDto_inj (hdto'.trans hdto.symm), ← hcurrency]
      exact hrate'
    · intro hrate'
      exact ⟨on', rate, hon', by rw [hcurrency]; exact hrate', hdto⟩
  -- Of a quoted currency the first answer was a row of a day Postgres reads.
  have hfirst : r.currency ≠ "UAH" → Dated day ∧ ∃ p, IsLatest S.rows r.currency day p := by
    intro hc
    have hyear := getLatest_far hc hd hrate
    obtain ⟨p, hp, -⟩ := (getLatest_ok_iff hc hd hyear).mp hrate
    exact ⟨⟨by omega, hyear.2⟩, p, hp⟩
  refine ⟨hsame, fun h₀ hstored h₀' => hsame.trans ?_, fun hcache hcache' hstored =>
    hsame.trans ?_⟩
  · by_cases hc : r.currency = "UAH"
    · exact iff_of_true (Or.inl hc) (Or.inl hc)
    · obtain ⟨-, p, hp⟩ := hfirst hc
      rw [sameLatest_iff (answering_storesDays h₀ hstored)
        (answering_storesDays h₀' (.refl T'.toFxRows)) hp]
  · by_cases hc : r.currency = "UAH"
    · exact iff_of_true (Or.inl hc) (Or.inl hc)
    · obtain ⟨hdated, p, hp⟩ := hfirst hc
      rw [sameLatest_grown_iff hcache hcache' hstored hdated hp]

/-- USD of the first two days of September 2026. -/
def septemberRates : FxTable where
  rows := [rateOn 2026 9 2 "nbu" 416000000000, rateOn 2026 9 1 "nbu" 415000000000]
  key := by decide +kernel
  dated := by decide +kernel

/-- With the third day stored. -/
def septemberThird : FxTable where
  rows := rateOn 2026 9 3 "nbu" 417000000000 :: septemberRates.rows
  key := by decide +kernel
  dated := by decide +kernel

theorem septemberThird_stores : septemberRates.StoresDays septemberThird.toFxRows := by
  refine ⟨fun r hr => List.mem_cons_of_mem _ hr, fun r hr hnew => ?_⟩
  rcases List.mem_cons.mp hr with rfl | hold
  · decide +kernel
  · exact absurd hold hnew

/-- `GET /fx-rates/USD/latest?on=2026-09-0d`, at noon of the fifth. -/
def septemberRequest (d : Int) : FxRateRequest :=
  let noon := daysFromCivil 2026 9 5 * MS_PER_DAY + 43200000
  ⟨"USD", some ("2026-09-0" ++ toString d), noon, noon⟩

def septemberDate (d : Int) : String → Option Instant :=
  fun _ => some (daysFromCivil 2026 9 d * MS_PER_DAY)

theorem septemberRequest_day (d : Int) :
    (septemberRequest d).day (septemberDate d) = some (daysFromCivil 2026 9 d) := by
  show some (daysFromCivil 2026 9 d * MS_PER_DAY / MS_PER_DAY) = _
  rw [Int.mul_ediv_cancel _ (by decide)]

/-- The second stays what it was when the third is stored, in the process that has
answered and in one started since. -/
theorem closedDay_label_safe_iff_second :
    let dto : FxRateDto := ⟨"USD", "41.6000000000", "2026-09-02", "nbu"⟩
    (getLatest (septemberDate 2) septemberThird.rows
        (FxRateCache.load (FxRateRepository.findAllEffective septemberRates.rows))
        (septemberRequest 2)).body = .ok dto ∧
      (getLatest (septemberDate 2) septemberThird.rows
        (FxRateCache.load (FxRateRepository.findAllEffective septemberThird.rows))
        (septemberRequest 2)).body = .ok dto := by
  have hlabelled : getLatest (septemberDate 2) septemberRates.rows
      (FxRateCache.load (FxRateRepository.findAllEffective septemberRates.rows))
      (septemberRequest 2)
        = ⟨"public, max-age=86400", .ok ⟨"USD", "41.6000000000", "2026-09-02", "nbu"⟩⟩ := by
    decide +kernel
  have hreach : septemberRates.Reaches septemberThird.toFxRows (septemberRequest 2).currency
      (daysFromCivil 2026 9 2) := by
    unfold FxRows.Reaches
    decide +kernel
  obtain ⟨-, hkept, -⟩ := closedDay_label_safe_iff (septemberDate 2) septemberRates
    septemberRates.days septemberRates septemberThird.days (septemberRequest_day 2)
    (septemberRequest_day 2) rfl hlabelled
  obtain ⟨-, -, hstarted⟩ := closedDay_label_safe_iff (septemberDate 2) septemberRates
    septemberRates.days septemberThird septemberThird.days (septemberRequest_day 2)
    (septemberRequest_day 2) rfl hlabelled
  have hself : ∀ T, septemberRates.answering T (septemberRequest 2).currency
      (daysFromCivil 2026 9 2) = septemberRates.toFxRows :=
    fun T => if_pos (by decide +kernel)
  rw [hself, hself] at hkept
  have hreaches := FxRows.reaches_of_subset (fun r (hr : r ∈ septemberRates.rows) => hr)
    (septemberRequest 2).currency (daysFromCivil 2026 9 2)
  exact ⟨(hkept septemberThird_stores septemberThird_stores septemberThird_stores).mpr
      (Or.inr ⟨hreaches, hreaches⟩),
    (hstarted (.refl _) (.refl _) septemberThird_stores).mpr (Or.inr hreach)⟩

/-- The third, asked for before it is stored, is labelled for a day and answered
otherwise once it is. -/
theorem gap_day_label_unsafe :
    septemberRates.StoresDays septemberThird.toFxRows ∧
      getLatest (septemberDate 3) septemberRates.rows
          (FxRateCache.load (FxRateRepository.findAllEffective septemberRates.rows))
          (septemberRequest 3)
        = ⟨"public, max-age=86400", .ok ⟨"USD", "41.6000000000", "2026-09-02", "nbu"⟩⟩ ∧
      getLatest (septemberDate 3) septemberThird.rows
          (FxRateCache.load (FxRateRepository.findAllEffective septemberThird.rows))
          (septemberRequest 3)
        = ⟨"public, max-age=86400", .ok ⟨"USD", "41.7000000000", "2026-09-03", "nbu"⟩⟩ := by
  exact ⟨septemberThird_stores, by decide +kernel, by decide +kernel⟩

/-! ## Whatever is stored later -/

/-- A day not stored yet can be stored. -/
theorem exists_storesDay (T : FxDays) {currency : String} {day : Int}
    (hyear : 1 ≤ (civil day).1)
    (hfree : ∀ p ∈ T.rows, p.currency = currency → p.rateDate ≠ day) :
    ∃ T' : FxDays, T.StoresDays T'.toFxRows ∧
      ∃ q ∈ T'.rows, q.currency = currency ∧ q.rateDate = day := by
  have hday : ∀ p ∈ T.rows, p.day ≠ toLex (currency, day) := by
    intro p hp heq
    have hpair : (p.currency, p.rateDate) = (currency, day) := toLex.injective heq
    exact hfree p hp (congrArg Prod.fst hpair) (congrArg Prod.snd hpair)
  refine ⟨⟨⟨⟨currency, day, "nbu", Numeric.one⟩ :: T.rows, ?_⟩, ?_⟩, ⟨?_, ?_⟩, ?_⟩
  · rw [List.map_cons, List.nodup_cons]
    refine ⟨fun hmem => ?_, T.key⟩
    obtain ⟨p, hp, heq⟩ := List.mem_map.mp hmem
    have hkey : (p.currency, toLex (p.rateDate, p.source)) = (currency, toLex (day, "nbu")) :=
      toLex.injective heq
    have hdate : (p.rateDate, p.source) = (day, "nbu") :=
      toLex.injective (congrArg Prod.snd hkey)
    exact hfree p hp (congrArg Prod.fst hkey) (congrArg Prod.fst hdate)
  · intro r hr
    rcases List.mem_cons.mp hr with rfl | hold
    · exact hyear
    · exact T.anno r hold
  · exact fun r hr => List.mem_cons_of_mem _ hr
  · intro r hr hnew q hq
    rcases List.mem_cons.mp hr with rfl | hold
    · exact hday q hq
    · exact absurd hold hnew
  · exact ⟨_, List.mem_cons_self, rfl, rfl⟩

/-- No further day reaches past the last stored one of a currency exactly when
the day itself is stored. -/
theorem reaches_always_iff {T : FxDays} {currency : String} {day : Int}
    (hyear : 1 ≤ (civil day).1) :
    (∀ T' : FxDays, T.StoresDays T'.toFxRows → T.Reaches T'.toFxRows currency day) ↔
      ∃ p ∈ T.rows, p.currency = currency ∧ p.rateDate = day := by
  constructor
  · intro hall
    by_contra hnone
    have hfree : ∀ p ∈ T.rows, p.currency = currency → p.rateDate ≠ day :=
      fun p hp hc hd => hnone ⟨p, hp, hc, hd⟩
    obtain ⟨T', hstored, q, hq, hqc, hqd⟩ := exists_storesDay T hyear hfree
    obtain ⟨p, hp, hpc, hqp, hpd⟩ := hall T' hstored q hq hqc (by omega)
    exact hfree p hp hpc (by omega)
  · rintro ⟨p, hp, hpc, hpd⟩ T' - q hq hqc hqd
    exact ⟨p, hp, hpc, by omega, by omega⟩

end InvestApi.Ref
