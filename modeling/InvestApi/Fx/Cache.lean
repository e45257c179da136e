import InvestApi.Fx.Calendar

/-!
# The cache answers as the table does

`FxRateRepository.findLatest` sorts the rows of a currency and takes the first;
`FxRateCache` holds one row per day, put there by DISTINCT ON, and looks for the
last one not after the day by a binary search over texts. `IsLatest` is what both
are after, and it determines the row.

The rest is about a cache older than the table. A day after the last cached one
goes to the table; for a day up to it, rows that came later do not matter as long
as they are dated after it.
-/

namespace InvestApi.Ref

open InvestApi.Pg

/-- What the primary key of `fx_rate` makes of its rows: no two of one currency, day
and source. -/
structure FxRows where
  rows : List FxRate
  key : (rows.map FxRate.sortKey).Nodup

/-- Rows whose days a `YYYY-MM-DD` text can hold, those of the years 0001 to 9999. -/
structure FxTable extends FxRows where
  dated : ∀ r ∈ rows, 1 ≤ (civil r.rateDate).1 ∧ (civil r.rateDate).1 ≤ 9999

def FxRate.cached (r : FxRate) : CachedFxRate := ⟨toChar r.rateDate, r.rate, r.source⟩

/-! ## The row both are after -/

/-- `r` is the rate of `currency` on `day`: of the latest day not after it, and
there of the first source. -/
structure IsLatest (table : List FxRate) (currency : String) (day : Int) (r : FxRate) :
    Prop where
  mem : r ∈ table
  currency_eq : r.currency = currency
  le : r.rateDate ≤ day
  first : ∀ q ∈ table, q.currency = currency → q.rateDate ≤ day →
    q.rateDate < r.rateDate ∨ (r.rateDate = q.rateDate ∧ r.source ≤ q.source)

theorem FxRows.eq_of_key (T : FxRows) {r q : FxRate} (hr : r ∈ T.rows) (hq : q ∈ T.rows)
    (hc : r.currency = q.currency) (hd : r.rateDate = q.rateDate)
    (hs : r.source = q.source) : r = q := by
  refine List.inj_on_of_nodup_map T.key hr hq ?_
  rw [FxRate.sortKey, FxRate.sortKey, hc, hd, hs]

theorem IsLatest.unique {T : FxRows} {currency : String} {day : Int} {r q : FxRate}
    (hr : IsLatest T.rows currency day r) (hq : IsLatest T.rows currency day q) : r = q := by
  have hrq := hr.first q hq.mem hq.currency_eq hq.le
  have hqr := hq.first r hr.mem hr.currency_eq hr.le
  have hdate : r.rateDate = q.rateDate := by omega
  have hle : r.source ≤ q.source := by
    rcases hrq with h | h
    · omega
    · exact h.2
  have hge : q.source ≤ r.source := by
    rcases hqr with h | h
    · omega
    · exact h.2
  exact T.eq_of_key hr.mem hq.mem (hr.currency_eq.trans hq.currency_eq.symm) hdate
    (le_antisymm hle hge)

theorem firstBy_eq_none {α : Type} {before : α → α → Bool} {l : List α} :
    firstBy before l = none ↔ l = [] := by
  cases l with
  | nil => simp [firstBy]
  | cons a l =>
      rw [firstBy]
      split
      · simp
      · split <;> simp

/-- ORDER BY … LIMIT 1 finds a row that no other precedes. -/
theorem firstBy_spec {α : Type} {before : α → α → Bool}
    (htotal : ∀ a b, before a b = true ∨ before b a = true)
    (htrans : ∀ a b c, before a b = true → before b c = true → before a c = true) :
    ∀ {l : List α} {a : α}, firstBy before l = some a → a ∈ l ∧ ∀ b ∈ l, before a b = true := by
  intro l
  induction l with
  | nil => intro a h; simp [firstBy] at h
  | cons x l ih =>
      intro a h
      have hrefl : ∀ a, before a a = true := fun a => (htotal a a).elim id id
      rw [firstBy] at h
      split at h
      · next hnone =>
          obtain rfl := Option.some.inj h
          obtain rfl := firstBy_eq_none.mp hnone
          simp [hrefl]
      · next y hy =>
          obtain ⟨hmem, hfirst⟩ := ih hy
          split at h
          · next hxy =>
              obtain rfl := Option.some.inj h
              refine ⟨List.mem_cons_self, fun b hb => ?_⟩
              rcases List.mem_cons.mp hb with rfl | hb
              · exact hrefl b
              · exact htrans _ _ _ hxy (hfirst b hb)
          · next hxy =>
              obtain rfl := Option.some.inj h
              refine ⟨List.mem_cons_of_mem _ hmem, fun b hb => ?_⟩
              rcases List.mem_cons.mp hb with rfl | hb
              · exact (htotal y b).resolve_right hxy
              · exact hfirst b hb

theorem latestFirst_total (a b : FxRate) :
    a.latestFirst b = true ∨ b.latestFirst a = true := by
  simp only [FxRate.latestFirst, decide_eq_true_eq]
  rcases lt_trichotomy a.rateDate b.rateDate with h | h | h
  · exact Or.inr (Or.inl h)
  · rcases le_total a.source b.source with hs | hs
    · exact Or.inl (Or.inr ⟨h, hs⟩)
    · exact Or.inr (Or.inr ⟨h.symm, hs⟩)
  · exact Or.inl (Or.inl h)

theorem latestFirst_trans (a b c : FxRate) (hab : a.latestFirst b = true)
    (hbc : b.latestFirst c = true) : a.latestFirst c = true := by
  simp only [FxRate.latestFirst, decide_eq_true_eq] at *
  rcases hab with hab | ⟨hab, hs⟩
  · omega
  · rcases hbc with hbc | ⟨hbc, hs'⟩
    · omega
    · exact Or.inr ⟨by omega, hs.trans hs'⟩

theorem firstBy_latest {table : List FxRate} {currency : String} {day : Int} {r : FxRate}
    (h : firstBy FxRate.latestFirst
      (table.filter fun r => r.currency = currency ∧ r.rateDate ≤ day) = some r) :
    IsLatest table currency day r := by
  obtain ⟨hmem, hfirst⟩ := firstBy_spec latestFirst_total latestFirst_trans h
  rw [List.mem_filter, decide_eq_true_eq] at hmem
  refine ⟨hmem.1, hmem.2.1, hmem.2.2, fun q hq hc hd => ?_⟩
  have hq' := hfirst q (List.mem_filter.mpr ⟨hq, by simp [hc, hd]⟩)
  simpa only [FxRate.latestFirst, decide_eq_true_eq] using hq'

/-- The query answers with the latest row where there is one. -/
theorem firstBy_eq_some {T : FxRows} {currency : String} {day : Int} {r : FxRate}
    (h : IsLatest T.rows currency day r) : firstBy FxRate.latestFirst
      (T.rows.filter fun r => r.currency = currency ∧ r.rateDate ≤ day) = some r := by
  cases hq : firstBy FxRate.latestFirst
      (T.rows.filter fun r => r.currency = currency ∧ r.rateDate ≤ day) with
  | none =>
      have hmem : r ∈ T.rows.filter fun r => r.currency = currency ∧ r.rateDate ≤ day :=
        List.mem_filter.mpr ⟨h.mem, by simp [h.currency_eq, h.le]⟩
      rw [firstBy_eq_none.mp hq] at hmem
      simp at hmem
  | some q => rw [(firstBy_latest hq).unique h]

/-! ## The series of a currency -/

namespace FxRateCache

theorem lookup_push (currency c : String) (row : CachedFxRate) (cache : FxRateCache) :
    (push currency row cache).lookup c
      = if c = currency then some ((cache.lookup currency).getD [] ++ [row])
        else cache.lookup c := by
  induction cache with
  | nil =>
      by_cases h : c = currency
      · simp [push, h]
      · simp [push, List.lookup_cons, h, beq_eq_false_iff_ne.mpr h]
  | cons p cache ih =>
      obtain ⟨c', series⟩ := p
      rw [push]
      by_cases hc' : c' = currency
      · subst hc'
        by_cases h : c = c'
        · simp [h]
        · simp [List.lookup_cons, h, beq_eq_false_iff_ne.mpr h]
      · rw [if_neg hc', List.lookup_cons]
        by_cases h : c = c'
        · subst h
          simp [hc']
        · simp only [beq_eq_false_iff_ne.mpr h, ih, List.lookup_cons,
            beq_eq_false_iff_ne.mpr (Ne.symm hc')]

/-- Loading groups the rows by currency and keeps their order. -/
theorem lookup_load (rows : List (String × CachedFxRate)) (c : String) :
    (load rows).lookup c
      = if rows.filter (fun r => r.1 = c) = [] then none
        else some ((rows.filter fun r => r.1 = c).map (·.2)) := by
  have key : ∀ (rows : List (String × CachedFxRate)) (cache : FxRateCache),
      (rows.foldl (fun next r => push r.1 r.2 next) cache).lookup c
        = if rows.filter (fun r => r.1 = c) = [] then cache.lookup c
          else some ((cache.lookup c).getD [] ++ (rows.filter fun r => r.1 = c).map (·.2)) := by
    intro rows
    induction rows with
    | nil => intro cache; simp
    | cons r rows ih =>
        intro cache
        rw [List.foldl_cons, ih, lookup_push]
        by_cases h : r.1 = c
        · subst h
          rw [List.filter_cons_of_pos (by simp)]
          by_cases hrest : rows.filter (fun q => q.1 = r.1) = []
          · simp [hrest]
          · simp [hrest]
        · rw [if_neg (Ne.symm h), List.filter_cons_of_neg (by simpa using h)]
  rw [load, key]
  simp

/-! ## The binary search -/

/-- Entry `i` of a series is there and not after `onDate`. -/
def Reaches (series : List CachedFxRate) (onDate : String) (i : Nat) : Prop :=
  ∃ row, series[i]? = some row ∧ row.rateDate ≤ onDate

/-- The loop keeps `lo - 1` the last index known to reach and `hi + 1` the
first one known not to. -/
theorem search_spec {series : List CachedFxRate} {onDate : String}
    (hdown : ∀ i j, i ≤ j → Reaches series onDate j → Reaches series onDate i) :
    ∀ {fuel : Nat} {lo hi : Int}, 0 ≤ lo → lo ≤ hi + 1 → hi < series.length →
      (∀ i : Nat, (i : Int) < lo → Reaches series onDate i) →
      (∀ i : Nat, hi < (i : Int) → ¬ Reaches series onDate i) →
      hi + 1 - lo < fuel →
      ∃ found, search series onDate fuel lo hi (lo - 1) = found ∧ -1 ≤ found ∧
        ∀ i : Nat, Reaches series onDate i ↔ (i : Int) ≤ found := by
  intro fuel
  induction fuel with
  | zero => intro lo hi _ _ _ _ _ hfuel; omega
  | succ fuel ih =>
      intro lo hi h0 hlohi hhi hbelow habove hfuel
      rw [search]
      split
      · next hle =>
          obtain ⟨mid, hmid⟩ : ∃ mid, mid = (lo + hi) / 2 := ⟨_, rfl⟩
          have hlo : lo ≤ mid := by omega
          have hmidhi : mid ≤ hi := by omega
          have hcast : (mid.toNat : Int) = mid := by omega
          dsimp only
          rw [← hmid]
          have hlt : mid.toNat < series.length := by omega
          rw [List.getElem?_eq_getElem hlt]
          dsimp only
          split
          · next hreach =>
              have hmidr : Reaches series onDate mid.toNat :=
                ⟨_, List.getElem?_eq_getElem hlt, hreach⟩
              have hstep := @ih (mid + 1) hi (by omega) (by omega) hhi
                (fun i hi' => hdown i mid.toNat (by omega) hmidr) habove (by omega)
              rwa [show mid + 1 - 1 = mid by omega] at hstep
          · next hreach =>
              have hmidn : ¬ Reaches series onDate mid.toNat := by
                rintro ⟨row, hrow, hle'⟩
                rw [List.getElem?_eq_getElem hlt] at hrow
                obtain rfl := Option.some.inj hrow
                exact hreach hle'
              exact ih h0 (by omega) (by omega) hbelow
                (fun i hi' hr => hmidn (hdown mid.toNat i (by omega) hr)) (by omega)
      · next hgt =>
          refine ⟨lo - 1, rfl, by omega, fun i => ⟨fun hr => ?_, fun hi' => ?_⟩⟩
          · by_contra hlt
            exact habove i (by omega) hr
          · exact hbelow i (by omega)

end FxRateCache

/-! ## What a cached answer is -/

namespace FxTable

variable (T : FxTable) (currency : String)

/-- The rows the cache holds for a currency. -/
def series : List FxRate :=
  (distinctOn FxRate.day FxRate.sortKey T.rows).filter fun r => r.currency = currency

theorem day_mono (a b : FxRate) (h : a.sortKey ≤ b.sortKey) : a.day ≤ b.day := by
  rcases Prod.Lex.le_iff.mp h with h | ⟨h, h'⟩
  · exact Prod.Lex.le_iff.mpr (Or.inl h)
  · refine Prod.Lex.le_iff.mpr (Or.inr ⟨h, ?_⟩)
    rcases Prod.Lex.le_iff.mp h' with h' | ⟨h', _⟩
    · exact le_of_lt h'
    · exact le_of_eq h'

variable {T currency}

theorem mem_series {r : FxRate} (h : r ∈ T.series currency) :
    r ∈ T.rows ∧ r.currency = currency := by
  rw [series, List.mem_filter, decide_eq_true_eq] at h
  exact ⟨mem_of_mem_distinctOn h.1, h.2⟩

theorem series_increasing : (T.series currency).Pairwise fun a b => a.rateDate < b.rateDate := by
  have hday := (distinctOn_increasing day_mono : (distinctOn FxRate.day FxRate.sortKey
    T.rows).Pairwise _).sublist (List.filter_sublist (p := fun r => decide (r.currency = currency)))
  have hmem : ∀ r ∈ T.series currency, r.currency = currency := fun r hr => (mem_series hr).2
  refine List.Pairwise.imp_of_mem (fun {a b} ha hb h => ?_) hday
  rcases Prod.Lex.lt_iff.mp h with h | ⟨_, h⟩
  · exact absurd h (by rw [show (ofLex a.day).1 = currency from hmem a ha,
      show (ofLex b.day).1 = currency from hmem b hb]; exact lt_irrefl _)
  · exact h

/-- Every row of the currency has one of its day in the series, of the first
source. -/
theorem exists_series {q : FxRate} (hq : q ∈ T.rows) (hc : q.currency = currency) :
    ∃ r ∈ T.series currency, r.rateDate = q.rateDate ∧ r.source ≤ q.source := by
  obtain ⟨r, hr, hday, hle⟩ : ∃ r ∈ distinctOn FxRate.day FxRate.sortKey T.rows,
      r.day = q.day ∧ r.sortKey ≤ q.sortKey := exists_mem_distinctOn hq
  have hcurrency : r.currency = q.currency := congrArg (fun d => (ofLex d).1) hday
  have hdate : r.rateDate = q.rateDate := congrArg (fun d => (ofLex d).2) hday
  refine ⟨r, List.mem_filter.mpr ⟨hr, by simp [hcurrency, hc]⟩, hdate, ?_⟩
  rcases Prod.Lex.le_iff.mp hle with h | ⟨_, h⟩
  · exact absurd h (by simp [FxRate.sortKey, hcurrency])
  · rcases Prod.Lex.le_iff.mp h with h | ⟨_, h⟩
    · exact absurd h (by simp [FxRate.sortKey, hdate])
    · exact h

theorem lookup_cache : (FxRateCache.load (FxRateRepository.findAllEffective T.rows)).lookup currency
    = if T.series currency = [] then none
      else some ((T.series currency).map FxRate.cached) := by
  have hfilter : (FxRateRepository.findAllEffective T.rows).filter (fun r => r.1 = currency)
      = (T.series currency).map fun r => (r.currency, r.cached) := by
    rw [FxRateRepository.findAllEffective, List.filter_map, series]
    rfl
  rw [FxRateCache.lookup_load, hfilter]
  simp only [List.map_eq_nil_iff, List.map_map]
  rfl

theorem cached_le_iff {r : FxRate} (hr : r ∈ T.rows) {day : Int} (hday : Dated day) :
    r.cached.rateDate ≤ String.ofList (dateText day) ↔ r.rateDate ≤ day := by
  have hd := T.dated r hr
  show toChar r.rateDate ≤ _ ↔ _
  rw [toChar_dated hd]
  exact dateText_le_iff ⟨by omega, hd.2⟩ hday

theorem le_cached_iff {r : FxRate} (hr : r ∈ T.rows) {day : Int} (hday : Dated day) :
    String.ofList (dateText day) ≤ r.cached.rateDate ↔ day ≤ r.rateDate := by
  have hd := T.dated r hr
  show _ ≤ toChar r.rateDate ↔ _
  rw [toChar_dated hd]
  exact dateText_le_iff hday ⟨by omega, hd.2⟩

theorem reaches_iff {day : Int} (hday : Dated day) {i : Nat} :
    FxRateCache.Reaches ((T.series currency).map FxRate.cached)
        (String.ofList (dateText day)) i ↔
      ∃ r, (T.series currency)[i]? = some r ∧ r.rateDate ≤ day := by
  rw [FxRateCache.Reaches, List.getElem?_map]
  constructor
  · rintro ⟨row, hrow, hle⟩
    obtain ⟨r, hr, rfl⟩ := Option.map_eq_some_iff.mp hrow
    have hmem := (mem_series (List.mem_of_getElem? hr)).1
    exact ⟨r, hr, (cached_le_iff hmem hday).mp hle⟩
  · rintro ⟨r, hr, hle⟩
    have hmem := (mem_series (List.mem_of_getElem? hr)).1
    exact ⟨r.cached, by rw [hr]; rfl, (cached_le_iff hmem hday).mpr hle⟩

theorem series_le {i j : Nat} {r q : FxRate} (hi : (T.series currency)[i]? = some r)
    (hj : (T.series currency)[j]? = some q) (hij : i ≤ j) : r.rateDate ≤ q.rateDate := by
  rcases Nat.lt_or_eq_of_le hij with hlt | rfl
  · obtain ⟨hi', rfl⟩ := List.getElem?_eq_some_iff.mp hi
    obtain ⟨hj', rfl⟩ := List.getElem?_eq_some_iff.mp hj
    exact le_of_lt (List.pairwise_iff_getElem.mp series_increasing i j hi' hj' hlt)
  · obtain rfl := Option.some.inj (hi.symm.trans hj)
    exact le_refl _

/-- The search over the texts ends at the last row not after the day. -/
theorem search_series {day : Int} (hday : Dated day) :
    ∃ found : Int, FxRateCache.search ((T.series currency).map FxRate.cached)
        (String.ofList (dateText day)) (((T.series currency).map FxRate.cached).length + 1) 0
        (((T.series currency).map FxRate.cached).length - 1) (-1) = found ∧ -1 ≤ found ∧
      ∀ i : Nat, (∃ r, (T.series currency)[i]? = some r ∧ r.rateDate ≤ day) ↔
        (i : Int) ≤ found := by
  have hlen : ((T.series currency).map FxRate.cached).length = (T.series currency).length :=
    List.length_map ..
  have hdown : ∀ i j, i ≤ j →
      FxRateCache.Reaches ((T.series currency).map FxRate.cached)
        (String.ofList (dateText day)) j →
      FxRateCache.Reaches ((T.series currency).map FxRate.cached)
        (String.ofList (dateText day)) i := by
    intro i j hij hj
    rw [reaches_iff hday] at hj ⊢
    obtain ⟨q, hq, hle⟩ := hj
    have hi : i < (T.series currency).length :=
      Nat.lt_of_le_of_lt hij (List.getElem?_eq_some_iff.mp hq).1
    exact ⟨_, List.getElem?_eq_getElem hi,
      (series_le (List.getElem?_eq_getElem hi) hq hij).trans hle⟩
  have hnone : ∀ i : Nat, (((T.series currency).map FxRate.cached).length : Int) - 1 < i →
      ¬ FxRateCache.Reaches ((T.series currency).map FxRate.cached)
        (String.ofList (dateText day)) i := by
    intro i hi hr
    obtain ⟨r, hr, _⟩ := (reaches_iff hday).mp hr
    have hlt := (List.getElem?_eq_some_iff.mp hr).1
    omega
  obtain ⟨found, hfound, hge, hspec⟩ := @FxRateCache.search_spec _ _ hdown
    (((T.series currency).map FxRate.cached).length + 1) 0
    (((T.series currency).map FxRate.cached).length - 1) (by omega) (by omega)
    (by omega) (fun i hi => by omega) hnone (by omega)
  exact ⟨found, hfound, hge, fun i => (reaches_iff hday).symm.trans (hspec i)⟩

/-- The last row of the series not after the day is the latest row. -/
theorem isLatest_of_series {day : Int} {n : Nat} {r : FxRate}
    (hr : (T.series currency)[n]? = some r) (hle : r.rateDate ≤ day)
    (hlast : ∀ j q, (T.series currency)[j]? = some q → q.rateDate ≤ day → j ≤ n) :
    IsLatest T.rows currency day r := by
  obtain ⟨hmem, hc⟩ := mem_series (List.mem_of_getElem? hr)
  refine ⟨hmem, hc, hle, fun q hq hqc hqd => ?_⟩
  obtain ⟨x, hx, hxd, hxs⟩ := exists_series hq hqc
  obtain ⟨j, hj⟩ := List.getElem?_of_mem hx
  rcases Nat.lt_or_eq_of_le (hlast j x hj (by omega)) with hlt | rfl
  · obtain ⟨hj', rfl⟩ := List.getElem?_eq_some_iff.mp hj
    obtain ⟨hn', rfl⟩ := List.getElem?_eq_some_iff.mp hr
    have hbefore := List.pairwise_iff_getElem.mp
      (@series_increasing T currency) j n hj' hn' hlt
    exact Or.inl (by omega)
  · obtain rfl := Option.some.inj (hj.symm.trans hr)
    exact Or.inr ⟨hxd, hxs⟩

/-- What the cache of a table answers is the row of that table, and of a day it
has reached: some row of the currency is not before it. -/
theorem of_cached {day : Int} (hday : Dated day) {row : CachedFxRate}
    (h : (FxRateCache.load (FxRateRepository.findAllEffective T.rows)).findLatest currency
      (String.ofList (dateText day)) = some row) :
    (∃ r, IsLatest T.rows currency day r ∧ row = r.cached) ∧
      ∃ last ∈ T.rows, last.currency = currency ∧ day ≤ last.rateDate := by
  rw [FxRateCache.findLatest, lookup_cache] at h
  split at h
  · simp at h
  next series hseries =>
  split at hseries
  · simp at hseries
  obtain rfl := Option.some.inj hseries
  split at h
  · simp at h
  next last hlast =>
  split at h
  · simp at h
  next hafter =>
  rw [List.getLast?_map] at hlast
  obtain ⟨l, hl, rfl⟩ := Option.map_eq_some_iff.mp hlast
  obtain ⟨hlmem, hlc⟩ := mem_series (List.mem_of_getLast? hl)
  have hlday : day ≤ l.rateDate := (le_cached_iff hlmem hday).mp (not_lt.mp hafter)
  obtain ⟨found, hfound, hge, hspec⟩ := @search_series T currency day hday
  dsimp only at h
  rw [hfound] at h
  split at h
  · simp at h
  next hne =>
  refine ⟨?_, l, hlmem, hlc, hlday⟩
  have hcast : (found.toNat : Int) = found := by omega
  obtain ⟨r, hr, hle⟩ := (hspec found.toNat).mpr (by omega)
  rw [List.getElem?_map, hr] at h
  refine ⟨r, isLatest_of_series hr hle fun j q hj hq => ?_, (Option.some.inj h).symm⟩
  have hjf := (hspec j).mp ⟨q, hj, hq⟩
  omega

variable (T currency) in
/-- The rows of a currency surround the day. -/
def Covers (day : Int) : Prop :=
  (∃ p ∈ T.rows, p.currency = currency ∧ p.rateDate ≤ day) ∧
    ∃ q ∈ T.rows, q.currency = currency ∧ day ≤ q.rateDate

instance (day : Int) : Decidable (T.Covers currency day) :=
  inferInstanceAs (Decidable (_ ∧ _))

/-- A day between two rows of its table is answered by the cache. -/
theorem cached_of_covers {day : Int} (hday : Dated day) (h : T.Covers currency day) :
    ∃ row, (FxRateCache.load (FxRateRepository.findAllEffective T.rows)).findLatest currency
      (String.ofList (dateText day)) = some row := by
  obtain ⟨⟨p, hp, hpc, hpd⟩, q, hq, hqc, hqd⟩ := h
  obtain ⟨x, hx, hxd, -⟩ := exists_series hp hpc
  obtain ⟨z, hz, hzd, -⟩ := exists_series hq hqc
  obtain ⟨i, hi⟩ := List.getElem?_of_mem hx
  obtain ⟨j, hj⟩ := List.getElem?_of_mem hz
  obtain ⟨l, hl⟩ : ∃ l, (T.series currency).getLast? = some l :=
    ⟨_, List.getLast?_eq_some_getLast (List.ne_nil_of_mem hx)⟩
  have hlmem : l ∈ T.rows := (mem_series (List.mem_of_getLast? hl)).1
  have hlday : day ≤ l.rateDate := by
    have hlast := hl
    rw [List.getLast?_eq_getElem?] at hlast
    have hjlt := (List.getElem?_eq_some_iff.mp hj).1
    have hle := series_le hj hlast (by omega)
    omega
  obtain ⟨found, hfound, hge, hspec⟩ := @search_series T currency day hday
  have hreach : (i : Int) ≤ found := (hspec i).mp ⟨x, hi, by omega⟩
  obtain ⟨r, hr, -⟩ := (hspec found.toNat).mpr (by omega)
  rw [FxRateCache.findLatest, lookup_cache, if_neg (List.ne_nil_of_mem hx)]
  dsimp only
  rw [List.getLast?_map, hl]
  dsimp only [Option.map_some]
  rw [if_neg (not_lt.mpr ((le_cached_iff hlmem hday).mpr hlday)), hfound, if_neg (by omega),
    List.getElem?_map, hr]
  exact ⟨_, rfl⟩

/-- A text before every date of the table is answered by no cache of it. -/
theorem misses {onDate : String}
    (h : ∀ r ∈ T.rows, onDate < r.cached.rateDate) :
    (FxRateCache.load (FxRateRepository.findAllEffective T.rows)).findLatest currency onDate
      = none := by
  rw [FxRateCache.findLatest, lookup_cache]
  split
  · rfl
  next series hseries =>
  split at hseries
  · simp at hseries
  obtain rfl := Option.some.inj hseries
  have hnever : ∀ i, ¬ FxRateCache.Reaches ((T.series currency).map FxRate.cached) onDate i := by
    rintro i ⟨row, hrow, hle⟩
    rw [List.getElem?_map] at hrow
    obtain ⟨r, hr, rfl⟩ := Option.map_eq_some_iff.mp hrow
    exact absurd hle (not_le.mpr (h r (mem_series (List.mem_of_getElem? hr)).1))
  obtain ⟨found, hfound, hge, hspec⟩ := @FxRateCache.search_spec _ _
    (fun i j _ hj => absurd hj (hnever j))
    (((T.series currency).map FxRate.cached).length + 1) 0
    (((T.series currency).map FxRate.cached).length - 1) (by omega) (by omega)
    (by omega) (fun i hi => by omega) (fun i _ => hnever i) (by omega)
  have hnone : found = -1 := by
    by_contra hne
    exact hnever found.toNat ((hspec found.toNat).mpr (by omega))
  rw [hnone] at hfound
  split
  · rfl
  · split
    · rfl
    · dsimp only
      rw [show (-1 : Int) = 0 - 1 from rfl, hfound]
      rfl

end FxTable

/-! ## The two lookups -/

theorem civil_year_mono {n n' : Int} (h : n ≤ n') : (civil n).1 ≤ (civil n').1 := by
  rcases Int.lt_or_eq_of_le h with hlt | rfl
  · rcases civil_lt hlt with h | h
    · omega
    · omega
  · exact le_refl _

/-- The query, for a day whose text Postgres reads. -/
theorem findLatest_day {table : List FxRate} {currency : String} {on : Instant} {day : Int}
    (hday : on / MS_PER_DAY = day) (h : 1 ≤ (civil day).1 ∧ (civil day).1 ≤ 9999) :
    FxRateRepository.findLatest table currency on
      = .ok (firstBy FxRate.latestFirst
        (table.filter fun r => r.currency = currency ∧ r.rateDate ≤ day)) := by
  unfold FxRateRepository.findLatest
  rw [pgDateIn_toDateOnly hday h]

/-- `later` holds `T` and, of each currency, only rows dated after all of `T`, in
whatever year. -/
def FxTable.GrowsTo (T : FxTable) (later : FxRows) : Prop :=
  (∀ r ∈ T.rows, r ∈ later.rows) ∧ ∀ r ∈ later.rows, r ∉ T.rows →
    ∀ q ∈ T.rows, q.currency = r.currency → q.rateDate < r.rateDate

theorem FxTable.GrowsTo.refl (T : FxTable) : T.GrowsTo T.toFxRows :=
  ⟨fun _ hr => hr, fun _ hr hnew => absurd hr hnew⟩

/-- A row the cache of `T` answers with is the latest of any table `T` has grown
to. -/
theorem FxTable.GrowsTo.isLatest {T : FxTable} {later : FxRows} (h : T.GrowsTo later)
    {currency : String} {day : Int} {r : FxRate} (hr : IsLatest T.rows currency day r)
    (hlast : ∃ last ∈ T.rows, last.currency = currency ∧ day ≤ last.rateDate) :
    IsLatest later.rows currency day r := by
  obtain ⟨last, hlast, hlc, hld⟩ := hlast
  refine ⟨h.1 r hr.mem, hr.currency_eq, hr.le, fun q hq hc hd => ?_⟩
  by_cases hold : q ∈ T.rows
  · exact hr.first q hold hc hd
  · have hafter := h.2 q hq hold last hlast (hlc.trans hc.symm)
    omega

/-- Outside the years Postgres reads as four digits the query fails. -/
theorem findLatest_far {table : List FxRate} {currency : String} {on : Instant} {day : Int}
    (hday : on / MS_PER_DAY = day) (h : ¬ (1 ≤ (civil day).1 ∧ (civil day).1 ≤ 9999)) :
    FxRateRepository.findLatest table currency on = .error (.db "22008") := by
  have hread : pgDateIn (toDateOnly on) = none := by
    by_cases hdated : Dated day
    · rw [toDateOnly_dated (hday ▸ hdated), hday, pgDateIn_dateText hdated]
      obtain ⟨h0, h1⟩ := hdated
      exact if_pos (by omega)
    · exact pgDateIn_far (hday ▸ hdated)
  unfold FxRateRepository.findLatest
  rw [hread]

/-- And no cache has a row not after such a day. -/
theorem FxTable.misses_far (T : FxTable) {currency : String} {on : Instant} {day : Int}
    (hday : on / MS_PER_DAY = day) (h : ¬ (1 ≤ (civil day).1 ∧ (civil day).1 ≤ 9999)) :
    (FxRateCache.load (FxRateRepository.findAllEffective T.rows)).findLatest currency
      (toDateOnly on) = none := by
  refine FxTable.misses fun r hr => ?_
  have hd := T.dated r hr
  by_cases hdated : Dated day
  · rw [toDateOnly_dated (hday ▸ hdated), hday]
    refine lt_of_not_ge fun hle => ?_
    have hyear := civil_year_mono ((FxTable.cached_le_iff hr hdated).mp hle)
    obtain ⟨h0, h1⟩ := hdated
    omega
  · show _ < toChar r.rateDate
    rw [toChar_dated hd]
    exact far_lt_dateText (hday ▸ hdated) ⟨by omega, hd.2⟩

/-- The service over the cache of a table that has grown since: the latest row
of the table as it is. -/
theorem FxTable.GrowsTo.findLatest {T : FxTable} {later : FxRows} (h : T.GrowsTo later)
    {currency : String} {on : Instant} {day : Int} (hday : on / MS_PER_DAY = day)
    (hyear : 1 ≤ (civil day).1 ∧ (civil day).1 ≤ 9999) :
    FxRatesService.findLatest later.rows
        (FxRateCache.load (FxRateRepository.findAllEffective T.rows)) currency on
      = .ok ((firstBy FxRate.latestFirst
        (later.rows.filter fun r => r.currency = currency ∧ r.rateDate ≤ day)).map
          FxRate.cached) := by
  have hdated : Dated day := ⟨by omega, hyear.2⟩
  rw [FxRatesService.findLatest]
  split
  · next row hrow =>
      rw [toDateOnly_dated (hday ▸ hdated), hday] at hrow
      obtain ⟨⟨r, hr, rfl⟩, hlast⟩ := FxTable.of_cached hdated hrow
      rw [firstBy_eq_some (h.isLatest hr hlast)]
      rfl
  · rw [findLatest_day hday hyear]
    rfl

/-- The table that answers in a process with the cache of `T₀`. -/
def FxTable.answering (T₀ : FxTable) (T : FxRows) (currency : String) (day : Int) : FxRows :=
  if T₀.Covers currency day then T₀.toFxRows else T

/-- The service over the cache of any table: the latest row of the one that answers. -/
theorem findLatest_answering {T₀ : FxTable} {T : FxRows} {currency : String} {on : Instant}
    {day : Int} (hday : on / MS_PER_DAY = day) (hyear : 1 ≤ (civil day).1 ∧ (civil day).1 ≤ 9999) :
    FxRatesService.findLatest T.rows
        (FxRateCache.load (FxRateRepository.findAllEffective T₀.rows)) currency on
      = .ok ((firstBy FxRate.latestFirst ((T₀.answering T currency day).rows.filter fun r =>
          r.currency = currency ∧ r.rateDate ≤ day)).map FxRate.cached) := by
  have hdated : Dated day := ⟨by omega, hyear.2⟩
  rw [FxRatesService.findLatest, toDateOnly_dated (hday ▸ hdated), hday, FxTable.answering]
  by_cases hcovers : T₀.Covers currency day
  · obtain ⟨row, hrow⟩ := FxTable.cached_of_covers hdated hcovers
    obtain ⟨⟨r, hr, rfl⟩, -⟩ := FxTable.of_cached hdated hrow
    rw [hrow, if_pos hcovers, firstBy_eq_some hr]
    rfl
  · rw [if_neg hcovers]
    split
    · next row hrow =>
        obtain ⟨⟨r, hr, -⟩, hlast⟩ := FxTable.of_cached hdated hrow
        exact absurd ⟨⟨r, hr.mem, hr.currency_eq, hr.le⟩, hlast⟩ hcovers
    · rw [findLatest_day hday hyear]
      rfl

/-- The hybrid lookup: the cache of a table, asked about any instant when the
table has grown, answers as the table's own query. -/
theorem hybrid_findLatest {T : FxTable} {later : FxRows} (h : T.GrowsTo later)
    (currency : String) (on : Instant) :
    FxRatesService.findLatest later.rows
        (FxRateCache.load (FxRateRepository.findAllEffective T.rows)) currency on
      = (FxRateRepository.findLatest later.rows currency on).map
          fun row => row.map FxRate.cached := by
  obtain ⟨day, hday⟩ : ∃ day, on / MS_PER_DAY = day := ⟨_, rfl⟩
  by_cases hyear : 1 ≤ (civil day).1 ∧ (civil day).1 ≤ 9999
  · rw [h.findLatest hday hyear, findLatest_day hday hyear]
    rfl
  · rw [FxRatesService.findLatest, T.misses_far hday hyear, findLatest_far hday hyear]
    rfl

def rateOn (y m d : Int) (source : String) (rate : Int) : FxRate :=
  ⟨"USD", daysFromCivil y m d, source, ⟨rate⟩⟩

def sampleRates : FxTable where
  rows := [rateOn 2026 9 2 "seed-alt" 421, rateOn 2026 9 2 "seed" 420, rateOn 2026 9 1 "nbu" 410]
  key := by decide +kernel
  dated := by decide +kernel

/-- With two later days, one past the years of a text. -/
def laterRates : FxRows where
  rows := rateOn 2026 9 4 "nbu" 430 :: rateOn 10000 1 1 "nbu" 440 :: sampleRates.rows
  key := by decide +kernel

theorem sampleRates_grows : sampleRates.GrowsTo laterRates := by
  refine ⟨fun r hr => List.mem_cons_of_mem _ (List.mem_cons_of_mem _ hr), fun r hr hnew => ?_⟩
  rcases List.mem_cons.mp hr with rfl | hr
  · decide +kernel
  · rcases List.mem_cons.mp hr with rfl | hold
    · decide +kernel
    · exact absurd hold hnew

/-- On the day of two sources both answer with the first one. -/
theorem hybrid_findLatest_sample :
    let cache := FxRateCache.load (FxRateRepository.findAllEffective sampleRates.rows)
    FxRatesService.findLatest laterRates.rows cache "USD"
          (daysFromCivil 2026 9 2 * MS_PER_DAY)
        = (FxRateRepository.findLatest laterRates.rows "USD"
            (daysFromCivil 2026 9 2 * MS_PER_DAY)).map (fun row => row.map FxRate.cached)
      ∧ cache.findLatest "USD" "2026-09-02" = some ⟨"2026-09-02", ⟨420⟩, "seed"⟩ := by
  exact ⟨hybrid_findLatest sampleRates_grows "USD" _, by decide +kernel⟩

/-! A year past 9999 has five digits, and its text no longer sorts as its day:
`10000-01-01` stands before `1050-01-01`, and `11000-01-01` after it. -/

def farRates : List FxRate :=
  [rateOn 500 1 1 "nbu" 1, rateOn 10000 1 1 "nbu" 2, rateOn 11000 1 1 "nbu" 3]

theorem hybrid_misses_far_years :
    (farRates.map FxRate.sortKey).Nodup ∧
      Dated (daysFromCivil 1050 1 1 * MS_PER_DAY / MS_PER_DAY) ∧
      FxRatesService.findLatest farRates
          (FxRateCache.load (FxRateRepository.findAllEffective farRates)) "USD"
          (daysFromCivil 1050 1 1 * MS_PER_DAY)
        = .ok (some ⟨"10000-01-01", ⟨2⟩, "nbu"⟩) ∧
      FxRateRepository.findLatest farRates "USD" (daysFromCivil 1050 1 1 * MS_PER_DAY)
        = .ok (some (rateOn 500 1 1 "nbu" 1)) := by
  refine ⟨by decide +kernel, by unfold Dated; decide +kernel, ?_, ?_⟩
  · rw [FxRatesService.findLatest]
    have hrow : (FxRateCache.load (FxRateRepository.findAllEffective farRates)).findLatest "USD"
        (toDateOnly (daysFromCivil 1050 1 1 * MS_PER_DAY))
        = some ⟨"10000-01-01", ⟨2⟩, "nbu"⟩ := by decide +kernel
    rw [hrow]
  · unfold FxRateRepository.findLatest
    have hday : pgDateIn (toDateOnly (daysFromCivil 1050 1 1 * MS_PER_DAY))
        = some (daysFromCivil 1050 1 1) := by decide +kernel
    have hrow : firstBy FxRate.latestFirst (farRates.filter fun r =>
        r.currency = "USD" ∧ r.rateDate ≤ daysFromCivil 1050 1 1)
        = some (rateOn 500 1 1 "nbu" 1) := by decide +kernel
    rw [hday]
    exact congrArg Except.ok hrow

end InvestApi.Ref
