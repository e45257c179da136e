import Mathlib.Data.List.Dedup
import InvestApi.Codec.Traverse
import InvestApi.Fx.Calendar
import InvestApi.Ref.FxSync

/-!
# What the sync reads and writes

A day goes out to NBU as eight digits, comes back dotted, is turned into the
text of a `date` column and read by Postgres: for the years the texts can name
it is the same day all along. The rest says what one upsert leaves in the table
and what `findLastDates` reads off it.
-/

namespace InvestApi.Ref

/-! ## The texts -/

theorem isDigit_of_mem_digits {w n : Nat} {c : Char} (h : c ∈ digits w n) :
    c.isDigit = true := by
  induction w generalizing n with
  | zero => simp [digits] at h
  | succ w ih =>
      rw [digits, List.mem_append, List.mem_singleton] at h
      rcases h with h | rfl
      · exact ih h
      · exact (digitChar_value (Nat.mod_lt _ (by decide))).1

theorem filter_digits {w n : Nat} :
    (digits w n).filter (fun c => decide (c ≠ '-')) = digits w n := by
  refine List.filter_eq_self.mpr fun c hc => decide_eq_true ?_
  rintro rfl
  exact absurd (isDigit_of_mem_digits hc) (by decide)

/-- A day is read back from its eight digits. -/
theorem nbuDateIn_digits {n : Int} (h : Dated n) :
    nbuDateIn (String.ofList (digits 4 (civil n).1.toNat ++ (digits 2 (civil n).2.1.toNat
      ++ digits 2 (civil n).2.2.toNat))) = some n := by
  have hm := civil_month n
  have hd := civil_day n
  obtain ⟨hy0, hy1⟩ := h
  have hy := @digitsValue_digits 4 (civil n).1.toNat (by omega)
  have hmv := @digitsValue_digits 2 (civil n).2.1.toNat (by omega)
  have hdv := @digitsValue_digits 2 (civil n).2.2.toNat (by omega)
  simp only [digits, List.nil_append, List.cons_append] at hy hmv hdv
  rw [nbuDateIn, String.toList_ofList]
  simp only [digits, List.nil_append, List.cons_append, hy, hmv, hdv]
  rw [show (((civil n).1.toNat : Nat) : Int) = (civil n).1 by omega,
    show (((civil n).2.1.toNat : Nat) : Int) = (civil n).2.1 by omega,
    show (((civil n).2.2.toNat : Nat) : Int) = (civil n).2.2 by omega,
    daysFromCivil_civil n]
  exact if_pos rfl

/-- And from the request's spelling. -/
theorem nbuDateIn_dateText {n : Int} (h : Dated n) :
    nbuDateIn (toNbuParam (String.ofList (dateText n))) = some n := by
  rw [toNbuParam, String.toList_ofList, dateText_dated h, List.filter_append,
    List.cons_append, List.filter_cons_of_neg (by decide), List.filter_append,
    List.filter_cons_of_neg (by decide), filter_digits, filter_digits, filter_digits]
  exact nbuDateIn_digits h

theorem isoDateIn_dateText {n : Int} (h : Dated n) :
    isoDateIn (String.ofList (dateText n)) = some n := by
  have hdigits := nbuDateIn_digits h
  rw [isoDateIn, String.toList_ofList, dateText_dated h]
  simp only [digits, List.nil_append, List.cons_append] at hdigits ⊢
  exact hdigits

theorem addDays_dated {t : Instant} {day : Int} (hday : t / MS_PER_DAY = day)
    (h : Dated day) (hnext : Dated (day + 1)) :
    addDays (toDateOnly t) 1 = some (String.ofList (dateText (day + 1))) := by
  have hdiv : (day + 1) * MS_PER_DAY / MS_PER_DAY = day + 1 :=
    Int.mul_ediv_cancel _ (by decide)
  have hdated : Dated ((day + 1) * MS_PER_DAY / MS_PER_DAY) := by
    rw [hdiv]
    exact hnext
  rw [addDays, toDateOnly_dated (hday ▸ h), hday, isoDateIn_dateText h, Option.map_some,
    toDateOnly_dated hdated, hdiv]

/-- A day as NBU spells it becomes the text of the column. -/
theorem parseNbuDate_text {n : Int} (h : Dated n) :
    parseNbuDate (nbuDateText n) = String.ofList (dateText n) := by
  have hdot : ∀ w k, '.' ∉ digits w k := fun w k hmem =>
    absurd (isDigit_of_mem_digits hmem) (by decide)
  have hsplit : (nbuDateText n).toList.splitOn '.'
      = [digits 2 (civil n).2.2.toNat, digits 2 (civil n).2.1.toNat,
        digits 4 (civil n).1.toNat] := by
    rw [nbuDateText, String.toList_ofList, ← List.splitOn_intercalate '.' (fun l hl => ?_)
      (List.cons_ne_nil _ _)]
    · simp [List.intercalate, List.intersperse, List.append_assoc]
    · simp only [List.mem_cons, List.not_mem_nil, or_false] at hl
      rcases hl with rfl | rfl | rfl <;> exact hdot _ _
  rw [parseNbuDate, hsplit, dateText_dated h]
  rfl

/-! ## What a parsed answer holds -/

/-- The row a quote of the currency is parsed to. -/
def NbuQuote.row (q : NbuQuote) (code : String) : FxRateRow :=
  ⟨code, String.ofList (dateText q.day), q.rate, q.units⟩

theorem ofRecord_quotes {q : NbuQuote} (hdated : Dated q.day) {record : NbuRecord}
    (hq : record.quotes q) {currency : QuotedCurrency} {row : FxRateRow}
    (h : FxRateRow.ofRecord currency record = .ok row) : row = q.row currency.code := by
  obtain ⟨hday, hrate, hunits⟩ := hq
  rw [FxRateRow.ofRecord] at h
  split at h
  · simp at h
  · rw [← Except.ok.inj h, hday, hrate, hunits, parseNbuDate_text hdated]
    rfl

/-- What is parsed of an answer is a row for each quote it lists. -/
theorem parsed_rows {quotes : List NbuQuote} {records : List NbuRecord}
    (hdated : ∀ q ∈ quotes, Dated q.day)
    (hquotes : List.Forall₂ NbuRecord.quotes records quotes) {currency : QuotedCurrency}
    {rows : List FxRateRow} (h : parseNbuResponse (some records) currency = .ok rows) :
    rows = quotes.map fun q => q.row currency.code := by
  rw [parseNbuResponse] at h
  split at h
  · next hvalid =>
      have hrows := mapM_ok h
      clear h hvalid
      induction hquotes generalizing rows with
      | nil =>
          cases hrows
          rfl
      | @cons record q records quotes hq _ ih =>
          cases hrows with
          | cons hrow hrest =>
              rw [ofRecord_quotes (hdated q List.mem_cons_self) hq hrow, List.map_cons,
                ih (fun q hq => hdated q (List.mem_cons_of_mem _ hq)) hrest]
  · simp at h

/-! ## One upsert -/

namespace StoredFxRate

theorem ofRow_ok {source : String} {row : FxRateRow} {r : StoredFxRate}
    (h : ofRow source row = .ok r) : r.source = source ∧ r.currency = row.currency ∧
      pgDateIn row.rateDate = some r.rateDate := by
  rw [ofRow] at h
  split at h
  · simp at h
  next day hday =>
  dsimp only at h
  split at h
  · simp at h
  split at h
  · simp at h
  split at h
  · simp at h
  split at h
  · obtain rfl := Except.ok.inj h
    exact ⟨rfl, rfl, hday⟩
  · simp at h

theorem sortKey_eq_iff {r q : StoredFxRate} : r.sortKey = q.sortKey ↔
    r.currency = q.currency ∧ r.rateDate = q.rateDate ∧ r.source = q.source := by
  constructor
  · intro h
    have h1 : r.currency = q.currency := congrArg (fun k => (ofLex k).1) h
    have h2 : r.rateDate = q.rateDate := congrArg (fun k => (ofLex (ofLex k).2).1) h
    have h3 : r.source = q.source := congrArg (fun k => (ofLex (ofLex k).2).2) h
    exact ⟨h1, h2, h3⟩
  · rintro ⟨h1, h2, h3⟩
    simp [sortKey, view, FxRate.sortKey, h1, h2, h3]

end StoredFxRate

namespace FxStore

theorem eq_of_sortKey (S : FxStore) {r q : StoredFxRate} (hr : r ∈ S.rows) (hq : q ∈ S.rows)
    (h : r.sortKey = q.sortKey) : r = q :=
  List.inj_on_of_nodup_map S.key hr hq h

theorem mem_put {S : FxStore} {r q : StoredFxRate} :
    q ∈ (S.put r).rows ↔ q = r ∨ (q ∈ S.rows ∧ q.sortKey ≠ r.sortKey) := by
  rw [put]
  split
  · next hin =>
      obtain ⟨old, hold, hkey⟩ := List.mem_map.mp hin
      rw [List.mem_map]
      constructor
      · rintro ⟨p, hp, rfl⟩
        split
        · exact Or.inl rfl
        · next hne => exact Or.inr ⟨hp, hne⟩
      · rintro (rfl | ⟨hq, hne⟩)
        · exact ⟨old, hold, if_pos hkey⟩
        · exact ⟨q, hq, if_neg hne⟩
  · next hnew =>
      rw [List.mem_append, List.mem_singleton]
      constructor
      · rintro (hq | rfl)
        · refine Or.inr ⟨hq, fun heq => hnew ?_⟩
          rw [← heq]
          exact List.mem_map_of_mem hq
        · exact Or.inl rfl
      · rintro (rfl | ⟨hq, _⟩)
        · exact Or.inr rfl
        · exact Or.inl hq

theorem mem_foldl_put {stored : List StoredFxRate} : ∀ {S : FxStore},
    (stored.map StoredFxRate.sortKey).Nodup → ∀ {q : StoredFxRate},
      q ∈ (stored.foldl put S).rows ↔
        q ∈ stored ∨ (q ∈ S.rows ∧ q.sortKey ∉ stored.map StoredFxRate.sortKey) := by
  induction stored with
  | nil => intro S _ q; simp
  | cons r stored ih =>
      intro S hn q
      rw [List.map_cons, List.nodup_cons] at hn
      rw [List.foldl_cons, ih hn.2, mem_put, List.mem_cons, List.map_cons, List.mem_cons,
        not_or]
      constructor
      · rintro (hq | ⟨rfl | ⟨hq, hne⟩, hnot⟩)
        · exact Or.inl (Or.inr hq)
        · exact Or.inl (Or.inl rfl)
        · exact Or.inr ⟨hq, hne, hnot⟩
      · rintro ((rfl | hq) | ⟨hq, hne, hnot⟩)
        · exact Or.inr ⟨Or.inl rfl, hn.1⟩
        · exact Or.inl hq
        · exact Or.inr ⟨Or.inr ⟨hq, hne⟩, hnot⟩

/-- An upsert that goes through replaces the rows of its keys and keeps every
other. -/
theorem upsert_ok {S S' : FxStore} {source : String} {rows : List FxRateRow}
    (h : S.upsert source rows = .ok S') : ∃ stored : List StoredFxRate,
      List.Forall₂ (fun row r => StoredFxRate.ofRow source row = .ok r) rows stored ∧
      ∀ q, q ∈ S'.rows ↔
        q ∈ stored ∨ (q ∈ S.rows ∧ q.sortKey ∉ stored.map StoredFxRate.sortKey) := by
  rw [upsert] at h
  split at h
  · simp at h
  next stored hstored =>
  split at h
  · next hn =>
      obtain rfl := Except.ok.inj h
      exact ⟨stored, mapM_ok hstored, fun q => mem_foldl_put hn⟩
  · simp at h

/-! ## The last dates -/

theorem lookup_filterMap_dedup {α β : Type} (f : String → Option α) (g : α → β)
    (l : List String) (c : String) :
    ((l.dedup.filterMap fun c => (f c).map fun a => (c, g a)).lookup c)
      = if c ∈ l then (f c).map g else none := by
  simp only [← @List.mem_dedup _ _ c l]
  have hn := List.nodup_dedup l
  generalize l.dedup = l' at hn
  induction l' with
  | nil => rfl
  | cons c' l' ih =>
      rw [List.nodup_cons] at hn
      rw [List.filterMap_cons]
      cases hf : f c' with
      | none =>
          dsimp only [Option.map_none]
          rw [ih hn.2]
          by_cases hc : c = c'
          · subst hc
            simp [hn.1, hf]
          · simp [hc]
      | some a =>
          dsimp only [Option.map_some]
          rw [List.lookup_cons]
          by_cases hc : c = c'
          · subst hc
            simp [hf]
          · simp [beq_eq_false_iff_ne.mpr hc, hc, ih hn.2]

/-- `last` is the latest day a source has in the currency. -/
structure LastDay (S : FxStore) (source currency : String) (last : Int) : Prop where
  stored : ∃ r ∈ S.rows, r.source = source ∧ r.currency = currency ∧ r.rateDate = last
  latest : ∀ r ∈ S.rows, r.source = source → r.currency = currency → r.rateDate ≤ last

theorem findLastDates_lookup (S : FxStore) (source currency : String) :
    (∃ last, S.LastDay source currency last ∧
      (S.findLastDates source).lookup currency = some (toChar last)) ∨
    ((∀ r ∈ S.rows, r.source = source → r.currency ≠ currency) ∧
      (S.findLastDates source).lookup currency = none) := by
  rw [findLastDates, lookup_filterMap_dedup]
  cases hmax : (((S.rows.filter fun r => r.source = source).filter
      fun r => r.currency = currency).map (·.rateDate)).max? with
  | none =>
      right
      rw [List.max?_eq_none_iff, List.map_eq_nil_iff] at hmax
      refine ⟨fun r hr hs hc => ?_, by simp⟩
      have hmem : r ∈ (S.rows.filter fun r => r.source = source).filter
          fun r => r.currency = currency := by simp [hr, hs, hc]
      rw [hmax] at hmem
      simp at hmem
  | some last =>
      left
      rw [List.max?_eq_some_iff] at hmax
      obtain ⟨hmem, hle⟩ := hmax
      obtain ⟨r, hr, rfl⟩ := List.mem_map.mp hmem
      simp only [List.mem_filter, decide_eq_true_eq] at hr
      refine ⟨r.rateDate, ⟨⟨r, hr.1.1, hr.1.2, hr.2, rfl⟩, fun q hq hs hc => ?_⟩, ?_⟩
      · refine hle _ (List.mem_map_of_mem ?_)
        simp [hq, hs, hc]
      · refine if_pos (List.mem_map.mpr ⟨r, ?_, hr.2⟩)
        simp [hr.1]

end FxStore

end InvestApi.Ref
