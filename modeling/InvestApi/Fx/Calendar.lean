import Mathlib.Data.Int.ConditionallyCompleteOrder
import Mathlib.Tactic.IntervalCases
import Mathlib.Data.String.Basic
import Mathlib.Order.Monotone.Basic
import InvestApi.Ref.FxRates

/-!
# Days and their text

`fx_rate.rate_date` is a calendar day and the cache compares it as text. Both
are right because, in the years a `YYYY-MM-DD` text can name, the text of a day
sorts as the day does, and Postgres reads it back as that day.

The order is proved in the reckoning from March, in which a day is its year's
first day plus its month's first day plus the day of the month: each of the
three leads a strictly larger step than what follows it can make up for.
-/

namespace InvestApi.Ref

/-- The 29ths of February before year `y`, counted from March. -/
def leapDays (y : Int) : Int := y / 4 - y / 100 + y / 400

theorem leapDays_mono : Monotone leapDays := by
  refine monotone_int_of_le_succ fun y => ?_
  unfold leapDays
  omega

/-- `n` is day `day` of month `p` of `year`, both counted from March. -/
structure MarchDate (n year p day : Int) : Prop where
  month_nonneg : 0 ≤ p
  month_le : p ≤ 11
  day_pos : 1 ≤ day
  day_le : day ≤ 31
  doy_le : (153 * p + 2) / 5 + (day - 1) ≤ 365
  days : n + 719468
    = 365 * year + leapDays year + (153 * p + 2) / 5 + (day - 1)

/-- Within an era of 400 years: the day's year, and that the day falls in it. -/
private theorem yearOfEra {doe c d e yoe : Int} (h0 : 0 ≤ doe) (h1 : doe < 146097)
    (hc : c = doe / 1460) (hd : d = doe / 36524) (he : e = doe / 146096)
    (hy : yoe = (doe - c + d - e) / 365) :
    (0 ≤ yoe ∧ yoe ≤ 399) ∧ 0 ≤ doe - (365 * yoe + yoe / 4 - yoe / 100) ∧
      doe - (365 * yoe + yoe / 4 - yoe / 100) ≤ 365 := by
  have hd0 : 0 ≤ d := by omega
  have hd4 : d ≤ 4 := by omega
  have hy0 : 0 ≤ yoe := by omega
  have hy399 : yoe ≤ 399 := by omega
  obtain ⟨g, hg⟩ : ∃ g, g = yoe / 100 := ⟨_, rfl⟩
  rw [← hg]
  have hg0 : 0 ≤ g := by omega
  have hg3 : g ≤ 3 := by omega
  refine ⟨⟨hy0, hy399⟩, ?_, ?_⟩
  · interval_cases d <;> interval_cases g <;> omega
  · interval_cases d <;> interval_cases g <;> omega

/-- `civil` is the March reckoning, its last two months moved to the next
year. -/
theorem civil_march (n : Int) : ∃ year p day, MarchDate n year p day ∧
    civil n = (year + (if p < 10 then 0 else 1), (if p < 10 then p + 3 else p - 9), day) := by
  obtain ⟨z, hz⟩ : ∃ z, z = n + 719468 := ⟨_, rfl⟩
  obtain ⟨era, hera⟩ : ∃ era, era = z / 146097 := ⟨_, rfl⟩
  obtain ⟨doe, hdoe⟩ : ∃ doe, doe = z % 146097 := ⟨_, rfl⟩
  obtain ⟨yoe, hyoe⟩ : ∃ yoe, yoe = (doe - doe / 1460 + doe / 36524 - doe / 146096) / 365 :=
    ⟨_, rfl⟩
  obtain ⟨doy, hdoy⟩ : ∃ doy, doy = doe - (365 * yoe + yoe / 4 - yoe / 100) := ⟨_, rfl⟩
  obtain ⟨p, hp⟩ : ∃ p, p = (5 * doy + 2) / 153 := ⟨_, rfl⟩
  obtain ⟨⟨hy0, hy399⟩, hdoy0, hdoy365⟩ :=
    yearOfEra (by omega) (by omega) rfl rfl rfl hyoe
  rw [← hdoy] at hdoy0 hdoy365
  have hp0 : 0 ≤ p := by omega
  have hp11 : p ≤ 11 := by omega
  refine ⟨yoe + era * 400, p, doy - (153 * p + 2) / 5 + 1, ⟨hp0, hp11, ?_, ?_, ?_, ?_⟩, ?_⟩
  · omega
  · omega
  · omega
  · have hleap : leapDays (yoe + era * 400) = yoe / 4 - yoe / 100 + 97 * era := by
      have h4 : (yoe + era * 400) / 4 = yoe / 4 + 100 * era := by omega
      have h100 : (yoe + era * 400) / 100 = yoe / 100 + 4 * era := by omega
      have h400 : (yoe + era * 400) / 400 = era := by omega
      rw [leapDays, h4, h100, h400]
      omega
    have hday : z = era * 146097 + doe := by omega
    rw [← hz, hday, hleap]
    omega
  · rw [civil, ← hz, ← hera, ← hdoe, ← hyoe, ← hdoy, ← hp]
    by_cases h : p < 10
    · rw [if_pos h, if_pos h, if_neg (by omega)]
    · rw [if_neg h, if_neg h, if_pos (by omega)]

/-- Year, month, day, compared in this order. -/
def CivilLt (a b : Int × Int × Int) : Prop :=
  a.1 < b.1 ∨ a.1 = b.1 ∧ (a.2.1 < b.2.1 ∨ a.2.1 = b.2.1 ∧ a.2.2 < b.2.2)

/-- Days come in the order of their year, month and day. -/
theorem civil_lt {n n' : Int} (h : n < n') : CivilLt (civil n) (civil n') := by
  obtain ⟨y, p, d, hn, hc⟩ := civil_march n
  obtain ⟨y', p', d', hn', hc'⟩ := civil_march n'
  have hdays := hn.days
  have hdays' := hn'.days
  have hdoy := hn.doy_le
  have hdoy' := hn'.doy_le
  have hp := hn.month_nonneg
  have hp' := hn'.month_nonneg
  have hp11 := hn.month_le
  have hp11' := hn'.month_le
  have hd := hn.day_pos
  have hd' := hn'.day_pos
  have hd31 := hn.day_le
  have hd31' := hn'.day_le
  -- A later year, month or day of the month would make it a later day.
  have hyear : y ≤ y' := by
    by_contra hlt
    have hle : y' + 1 ≤ y := by omega
    have hleap := leapDays_mono (show y' ≤ y by omega)
    omega
  have hmonth : y = y' → p ≤ p' := by
    intro he
    subst he
    by_contra hlt
    have hstart : (153 * p' + 2) / 5 + 30 ≤ (153 * p + 2) / 5 := by omega
    omega
  have hday : y = y' → p = p' → d < d' := by
    intro he hpe
    subst he hpe
    omega
  clear hdays hdays' hdoy hdoy' hn hn'
  rw [hc, hc', CivilLt]
  dsimp only
  by_cases h10 : p < 10 <;> by_cases h10' : p' < 10 <;> simp only [h10, h10', if_true, if_false]
  · omega
  · omega
  · omega
  · omega

/-- The day number is read back from the three. -/
theorem daysFromCivil_civil (n : Int) :
    daysFromCivil (civil n).1 (civil n).2.1 (civil n).2.2 = n := by
  obtain ⟨y, p, d, hn, hc⟩ := civil_march n
  have hdays := hn.days
  have hp := hn.month_nonneg
  have hp11 := hn.month_le
  have hleap : leapDays y = y % 400 / 4 - y % 400 / 100 + 97 * (y / 400) := by
    unfold leapDays
    omega
  rw [hc, daysFromCivil]
  dsimp only
  by_cases h10 : p < 10
  · rw [if_pos h10, if_pos h10, if_neg (show ¬ p + 3 ≤ 2 by omega),
      if_pos (show p + 3 > 2 by omega), show p + 3 - 3 = p by omega,
      show y + 0 = y by omega]
    omega
  · rw [if_neg h10, if_neg h10, if_pos (show p - 9 ≤ 2 by omega),
      if_neg (show ¬ p - 9 > 2 by omega), show p - 9 + 9 = p by omega,
      show y + 1 - 1 = y by omega]
    omega

theorem civil_month (n : Int) : 1 ≤ (civil n).2.1 ∧ (civil n).2.1 ≤ 12 := by
  obtain ⟨y, p, d, hn, hc⟩ := civil_march n
  have hp := hn.month_nonneg
  have hp11 := hn.month_le
  rw [hc]
  dsimp only
  by_cases h10 : p < 10
  · rw [if_pos h10]
    omega
  · rw [if_neg h10]
    omega

theorem civil_day (n : Int) : 1 ≤ (civil n).2.2 ∧ (civil n).2.2 ≤ 31 := by
  obtain ⟨y, p, d, hn, hc⟩ := civil_march n
  rw [hc]
  exact ⟨hn.day_pos, hn.day_le⟩

/-! ## Decimal text -/

@[simp] theorem length_digits (w n : Nat) : (digits w n).length = w := by
  induction w generalizing n with
  | zero => rfl
  | succ w ih => simp [digits, ih]

theorem digitChar_lt {a b : Nat} (h : a < b) (hb : b < 10) :
    Nat.digitChar a < Nat.digitChar b := by
  interval_cases b <;> interval_cases a <;> decide

theorem digitChar_value {a : Nat} (h : a < 10) :
    (Nat.digitChar a).isDigit = true ∧ (Nat.digitChar a).toNat - '0'.toNat = a := by
  interval_cases a <;> decide

/-- Texts of one length sort by their first parts, and then by their second. -/
theorem append_lt_of_lt {a b x y : List Char} (hlen : a.length = b.length) (h : a < b) :
    a ++ x < b ++ y := by
  induction a generalizing b with
  | nil =>
      obtain rfl := List.length_eq_zero_iff.mp hlen.symm
      exact absurd h (lt_irrefl _)
  | cons c a ih =>
      cases b with
      | nil => simp at hlen
      | cons c' b =>
          rw [List.cons_append, List.cons_append]
          rcases List.cons_lt_cons_iff.mp h with hc | ⟨rfl, hab⟩
          · exact List.cons_lt_cons_iff.mpr (Or.inl hc)
          · exact List.cons_lt_cons_iff.mpr
              (Or.inr ⟨rfl, ih (Nat.succ.inj hlen) hab⟩)

theorem digits_lt {w : Nat} : ∀ {n n' : Nat}, n < n' → n' < 10 ^ w →
    digits w n < digits w n' := by
  induction w with
  | zero => intro n n' h hn; omega
  | succ w ih =>
      intro n n' h hn
      rw [digits, digits]
      rw [Nat.pow_succ] at hn
      rcases Nat.lt_or_ge (n / 10) (n' / 10) with hlt | hge
      · exact append_lt_of_lt (by simp) (ih hlt (by omega))
      · have heq : n / 10 = n' / 10 := by omega
        rw [heq]
        refine List.append_left_lt ?_
        exact List.cons_lt_cons_iff.mpr (Or.inl (digitChar_lt (by omega) (by omega)))

theorem digitsValue_digits {w n : Nat} (h : n < 10 ^ w) :
    digitsValue (digits w n) = some n := by
  have key : ∀ w n, (digits w n).all Char.isDigit = true ∧
      (n < 10 ^ w → (digits w n).foldl (fun a c => a * 10 + (c.toNat - '0'.toNat)) 0 = n) := by
    intro w
    induction w with
    | zero =>
        intro n
        refine ⟨rfl, fun h => ?_⟩
        rw [Nat.pow_zero, Nat.lt_one_iff] at h
        exact h.symm
    | succ w ih =>
        intro n
        obtain ⟨hall, hval⟩ := ih (n / 10)
        obtain ⟨hd, hv⟩ := digitChar_value (show n % 10 < 10 by omega)
        rw [digits, List.all_append, hall, List.foldl_append]
        refine ⟨by simp [hd], fun h => ?_⟩
        rw [hval (by rw [Nat.pow_succ] at h; omega), List.foldl_cons, List.foldl_nil, hv]
        omega
  obtain ⟨hall, hval⟩ := key w n
  rw [digitsValue, if_pos hall, hval h]

/-! ## The text of a day -/

/-- The years a `YYYY-MM-DD` text can name. -/
def Dated (n : Int) : Prop := 0 ≤ (civil n).1 ∧ (civil n).1 ≤ 9999

theorem dateText_dated {n : Int} (h : Dated n) :
    dateText n = digits 4 (civil n).1.toNat
      ++ ('-' :: digits 2 (civil n).2.1.toNat ++ '-' :: digits 2 (civil n).2.2.toNat) := by
  show yearText (civil n).1 ++ '-' :: digits 2 (civil n).2.1.toNat
    ++ '-' :: digits 2 (civil n).2.2.toNat = _
  rw [yearText, if_pos (show 0 ≤ (civil n).1 ∧ (civil n).1 ≤ 9999 from h),
    List.append_assoc]

theorem length_dateText {n : Int} (h : Dated n) : (dateText n).length = 10 := by
  rw [dateText_dated h]
  simp

/-- Texts sort as the days do. -/
theorem dateText_lt {n n' : Int} (hn : Dated n) (hn' : Dated n') (h : n < n') :
    dateText n < dateText n' := by
  have hm := civil_month n
  have hm' := civil_month n'
  have hd := civil_day n
  have hd' := civil_day n'
  rw [dateText_dated hn, dateText_dated hn']
  obtain ⟨hy0, hy1⟩ := hn
  obtain ⟨hy0', hy1'⟩ := hn'
  rcases civil_lt h with hlt | ⟨heq, hlt | ⟨hmeq, hlt⟩⟩
  · exact append_lt_of_lt (by simp) (digits_lt (by omega) (by omega))
  · rw [heq]
    refine List.append_left_lt ?_
    exact append_lt_of_lt (a := '-' :: digits 2 _) (b := '-' :: digits 2 _) (by simp)
      (List.cons_lt_cons_iff.mpr (Or.inr ⟨rfl, digits_lt (by omega) (by omega)⟩))
  · rw [heq, hmeq]
    refine List.append_left_lt (List.append_left_lt ?_)
    exact List.cons_lt_cons_iff.mpr (Or.inr ⟨rfl, digits_lt (by omega) (by omega)⟩)

theorem dateText_le_iff {n n' : Int} (hn : Dated n) (hn' : Dated n') :
    String.ofList (dateText n) ≤ String.ofList (dateText n') ↔ n ≤ n' := by
  rw [String.le_iff_toList_le, String.toList_ofList, String.toList_ofList]
  constructor
  · intro hle
    by_contra hlt
    exact absurd (dateText_lt hn' hn (by omega)) (not_lt.mpr hle)
  · intro hle
    rcases Int.lt_or_eq_of_le hle with hlt | rfl
    · exact le_of_lt (dateText_lt hn hn' hlt)
    · exact le_refl _

/-- Postgres reads the text of a day as that day, but for the year 0 it has
not. -/
theorem pgDateIn_dateText {n : Int} (h : Dated n) :
    pgDateIn (String.ofList (dateText n)) = if (civil n).1 = 0 then none else some n := by
  have hm := civil_month n
  have hd := civil_day n
  obtain ⟨hy0, hy1⟩ := h
  have hy := digitsValue_digits (w := 4) (n := (civil n).1.toNat) (by omega)
  have hmv := digitsValue_digits (w := 2) (n := (civil n).2.1.toNat) (by omega)
  have hdv := digitsValue_digits (w := 2) (n := (civil n).2.2.toNat) (by omega)
  simp only [digits, List.nil_append, List.cons_append] at hy hmv hdv
  have hback := daysFromCivil_civil n
  rw [pgDateIn, String.toList_ofList, dateText_dated ⟨hy0, hy1⟩]
  simp only [digits, List.nil_append, List.cons_append, hy, hmv, hdv]
  rw [show (((civil n).1.toNat : Nat) : Int) = (civil n).1 by omega,
    show (((civil n).2.1.toNat : Nat) : Int) = (civil n).2.1 by omega,
    show (((civil n).2.2.toNat : Nat) : Int) = (civil n).2.2 by omega, hback]
  by_cases h0 : (civil n).1 = 0
  · rw [if_pos h0, if_neg (by omega)]
  · rw [if_neg h0, if_pos ⟨by omega, rfl⟩]

theorem toDateOnly_dated {t : Instant} (h : Dated (t / MS_PER_DAY)) :
    toDateOnly t = String.ofList (dateText (t / MS_PER_DAY)) := by
  have hlen := length_dateText h
  rw [toDateOnly, toISOString, String.toList_ofList, List.append_assoc,
    List.take_append_of_le_length (by omega), List.take_of_length_le (by omega)]

/-- What Postgres makes of `toDateOnly`, but for the year 0. -/
theorem pgDateIn_toDateOnly {t : Instant} {day : Int} (hday : t / MS_PER_DAY = day)
    (h : 1 ≤ (civil day).1 ∧ (civil day).1 ≤ 9999) : pgDateIn (toDateOnly t) = some day := by
  subst hday
  have hdated : Dated (t / MS_PER_DAY) := ⟨le_trans (by decide) h.1, h.2⟩
  have hyear : ¬ (civil (t / MS_PER_DAY)).1 = 0 := by
    intro h0
    rw [h0] at h
    exact absurd h.1 (by decide)
  rw [toDateOnly_dated hdated, pgDateIn_dateText hdated]
  exact if_neg hyear

theorem toChar_dated {n : Int} (h : 1 ≤ (civil n).1 ∧ (civil n).1 ≤ 9999) :
    toChar n = String.ofList (dateText n) := by
  have hyear : pgYearText (civil n).1 = digits 4 (civil n).1.toNat := by
    rw [pgYearText, if_pos (show 0 < (civil n).1 by omega)]
    exact if_pos (by omega)
  show String.ofList (pgYearText (civil n).1 ++ '-' :: digits 2 (civil n).2.1.toNat
    ++ '-' :: digits 2 (civil n).2.2.toNat) = _
  rw [hyear, dateText_dated ⟨by omega, h.2⟩, List.append_assoc]

/-! Outside the years 0000 to 9999 the text starts with a sign, and the month
stands where the day would: no date for Postgres, and before every date for the
cache. -/

theorem dateText_far {n : Int} (h : ¬ Dated n) :
    dateText n = (if (civil n).1 < 0 then '-' else '+') :: (digits 6 (civil n).1.natAbs
      ++ ('-' :: digits 2 (civil n).2.1.toNat ++ '-' :: digits 2 (civil n).2.2.toNat)) := by
  show yearText (civil n).1 ++ '-' :: digits 2 (civil n).2.1.toNat
    ++ '-' :: digits 2 (civil n).2.2.toNat = _
  rw [yearText, if_neg (show ¬ (0 ≤ (civil n).1 ∧ (civil n).1 ≤ 9999) from h),
    List.append_assoc, List.cons_append]

theorem toDateOnly_far {t : Instant} (h : ¬ Dated (t / MS_PER_DAY)) :
    (toDateOnly t).toList = (if (civil (t / MS_PER_DAY)).1 < 0 then '-' else '+') ::
      (digits 6 (civil (t / MS_PER_DAY)).1.natAbs
        ++ '-' :: digits 2 (civil (t / MS_PER_DAY)).2.1.toNat) := by
  rw [toDateOnly, toISOString, String.toList_ofList, String.toList_ofList, dateText_far h]
  simp only [digits, List.nil_append, List.cons_append, List.take_succ_cons, List.take_zero]

theorem pgDateIn_far {t : Instant} (h : ¬ Dated (t / MS_PER_DAY)) :
    pgDateIn (toDateOnly t) = none := by
  have hdash : ∀ a, a < 10 → Nat.digitChar a ≠ '-' := by
    intro a ha
    interval_cases a <;> decide
  unfold pgDateIn
  rw [toDateOnly_far h]
  simp only [digits, List.nil_append, List.cons_append]
  split
  · next heq =>
      simp only [List.cons.injEq] at heq
      exact absurd heq.2.2.2.2.1 (hdash _ (Nat.mod_lt _ (by decide)))
  · rfl

theorem far_lt_dateText {t : Instant} (h : ¬ Dated (t / MS_PER_DAY)) {n : Int}
    (hn : Dated n) : toDateOnly t < String.ofList (dateText n) := by
  have hsign : ∀ a, a < 10 → '-' < Nat.digitChar a ∧ '+' < Nat.digitChar a := by
    intro a ha
    interval_cases a <;> decide
  rw [String.lt_iff_toList_lt, String.toList_ofList, toDateOnly_far h, dateText_dated hn]
  simp only [digits, List.nil_append, List.cons_append]
  refine List.cons_lt_cons_iff.mpr (Or.inl ?_)
  split
  · exact (hsign _ (Nat.mod_lt _ (by decide))).1
  · exact (hsign _ (Nat.mod_lt _ (by decide))).2

end InvestApi.Ref
