import Mathlib.Data.Int.Log
import Mathlib.Data.Rat.Floor
import Mathlib.Tactic.Linarith
import Mathlib.Tactic.Positivity
import Mathlib.Tactic.FieldSimp
import Mathlib.Tactic.Ring

namespace InvestApi.Codec

def roundHalfEven (x : Rat) : Int :=
  if x - x.floor < 1 / 2 then x.floor
  else if 1 / 2 < x - x.floor then x.floor + 1
  else if x.floor % 2 = 0 then x.floor
  else x.floor + 1

/-- Never further than to a neighbour. -/
theorem roundHalfEven_cases (x : Rat) :
    roundHalfEven x = x.floor ∨ roundHalfEven x = x.floor + 1 ∧ (x.floor : Rat) < x := by
  have hfloor := Int.floor_le x
  unfold roundHalfEven
  split
  · exact Or.inl rfl
  · next hlow =>
      have hlt : (x.floor : Rat) < x := by linarith
      split
      · exact Or.inr ⟨rfl, hlt⟩
      · split
        · exact Or.inl rfl
        · exact Or.inr ⟨rfl, hlt⟩

theorem le_roundHalfEven {n : Int} {x : Rat} (h : (n : Rat) ≤ x) : n ≤ roundHalfEven x := by
  have hfloor : n ≤ x.floor := Int.le_floor.mpr h
  rcases roundHalfEven_cases x with hx | ⟨hx, _⟩
  · omega
  · omega

theorem roundHalfEven_le {n : Int} {x : Rat} (h : x ≤ n) : roundHalfEven x ≤ n := by
  have hfloor := Int.floor_le x
  rcases roundHalfEven_cases x with hx | ⟨hx, hlt⟩
  · have hn : x.floor ≤ n := by exact_mod_cast hfloor.trans h
    omega
  · have hn : x.floor < n := by exact_mod_cast hlt.trans_le h
    omega

@[simp] theorem roundHalfEven_intCast (n : Int) : roundHalfEven n = n := by
  have hlow := le_roundHalfEven (le_refl (n : Rat))
  have hhigh := roundHalfEven_le (le_refl (n : Rat))
  omega

/-- The exponent of the last place that `p` bits keep of `x`. -/
def lastPlace (p : Nat) (x : Rat) : Int := Int.log 2 |x| + 1 - p

def roundTo (p : Nat) (x : Rat) : Rat :=
  if x = 0 then 0
  else roundHalfEven (x / 2 ^ lastPlace p x) * 2 ^ lastPlace p x

theorem roundTo_zero (p : Nat) : roundTo p 0 = 0 := if_pos rfl

/-- A number of `p` bits is kept. -/
theorem roundTo_scaled {p : Nat} {m : Int} (h : |m| < 2 ^ p) (e : Int) :
    roundTo p (m * 2 ^ e) = m * 2 ^ e := by
  by_cases h0 : m = 0
  · subst h0
    rw [Int.cast_zero, zero_mul]
    exact roundTo_zero p
  have hscale : (0 : Rat) < 2 ^ e := zpow_pos (by norm_num) _
  have hx : (m : Rat) * 2 ^ e ≠ 0 :=
    mul_ne_zero (by exact_mod_cast h0) hscale.ne'
  have hplace : lastPlace p (m * 2 ^ e) ≤ e := by
    have hlog : (2 : Rat) ^ Int.log 2 |(m : Rat) * 2 ^ e| < 2 ^ (p + e) := by
      refine (Int.zpow_log_le_self (by decide) (abs_pos.mpr hx)).trans_lt ?_
      rw [abs_mul, abs_of_pos hscale, zpow_add₀ (by norm_num), zpow_natCast]
      exact mul_lt_mul_of_pos_right (by exact_mod_cast h) hscale
    have hlt := (zpow_lt_zpow_iff_right₀ (by norm_num)).mp hlog
    rw [lastPlace]
    omega
  obtain ⟨k, hk⟩ := Int.eq_ofNat_of_zero_le (Int.sub_nonneg_of_le hplace)
  have hscaled : (m : Rat) * 2 ^ e / 2 ^ lastPlace p (m * 2 ^ e) = ((m * 2 ^ k : Int) : Rat) := by
    rw [mul_div_assoc, ← zpow_sub₀ (by norm_num), hk]
    push_cast
    rfl
  rw [roundTo, if_neg hx, hscaled, roundHalfEven_intCast, ← hscaled]
  exact div_mul_cancel₀ _ (zpow_ne_zero _ (by norm_num))

theorem roundTo_intCast {p : Nat} {n : Int} (h : |n| < 2 ^ p) : roundTo p n = n := by
  simpa using roundTo_scaled h 0

theorem roundTo_nonneg {p : Nat} {x : Rat} (h : 0 ≤ x) : 0 ≤ roundTo p x := by
  rw [roundTo]
  split
  · exact le_refl _
  · have hscale : (0 : Rat) < 2 ^ lastPlace p x := zpow_pos (by norm_num) _
    have hscaled : ((0 : Int) : Rat) ≤ x / 2 ^ lastPlace p x := by
      rw [Int.cast_zero]
      exact div_nonneg h hscale.le
    have hround : (0 : Rat) ≤ roundHalfEven (x / 2 ^ lastPlace p x) := by
      exact_mod_cast le_roundHalfEven hscaled
    exact mul_nonneg hround hscale.le

/-- From `2 ^ p` on, nothing is rounded below it. -/
theorem le_abs_roundTo {p : Nat} (hp : 0 < p) {x : Rat} (h : 2 ^ p ≤ |x|) :
    2 ^ p ≤ |roundTo p x| := by
  have hpos : 0 < |x| := lt_of_lt_of_le (by positivity) h
  have hx : x ≠ 0 := abs_pos.mp hpos
  have hself : (2 : Rat) ^ Int.log 2 |x| ≤ |x| :=
    Int.zpow_log_le_self (by decide) hpos
  have hlog : (p : Int) ≤ Int.log 2 |x| := by
    refine (Int.zpow_le_iff_le_log (by decide) hpos).mp ?_
    rw [zpow_natCast]
    exact_mod_cast h
  -- The significand keeps its leading bit.
  have hsplit : (2 : Rat) ^ Int.log 2 |x| = 2 ^ (p - 1) * 2 ^ lastPlace p x := by
    rw [← zpow_natCast, ← zpow_add₀ (by norm_num), lastPlace]
    congr 1
    omega
  have hscale : (0 : Rat) < 2 ^ lastPlace p x := zpow_pos (by norm_num) _
  have hbits : (2 : Rat) ^ (p - 1) ≤ |(roundHalfEven (x / 2 ^ lastPlace p x) : Rat)| := by
    rcases le_or_gt 0 x with hsign | hsign
    · rw [hsplit, abs_of_nonneg hsign, ← le_div_iff₀ hscale] at hself
      have hround := le_roundHalfEven (n := 2 ^ (p - 1)) (by exact_mod_cast hself)
      refine le_trans ?_ (le_abs_self _)
      exact_mod_cast hround
    · rw [hsplit, abs_of_neg hsign, ← le_div_iff₀ hscale, neg_div] at hself
      have hround := roundHalfEven_le (n := -2 ^ (p - 1)) (x := x / 2 ^ lastPlace p x)
        (by push_cast; linarith)
      refine le_trans ?_ (neg_le_abs _)
      have hcast : ((roundHalfEven (x / 2 ^ lastPlace p x) : Int) : Rat) ≤ -2 ^ (p - 1) := by
        exact_mod_cast hround
      linarith
  rw [roundTo, if_neg hx, abs_mul, abs_of_pos hscale]
  calc (2 : Rat) ^ p = 2 ^ (p : Int) := (zpow_natCast _ _).symm
    _ ≤ 2 ^ Int.log 2 |x| := zpow_le_zpow_right₀ (by norm_num) hlog
    _ = 2 ^ (p - 1) * 2 ^ lastPlace p x := hsplit
    _ ≤ |(roundHalfEven (x / 2 ^ lastPlace p x) : Rat)| * 2 ^ lastPlace p x :=
        mul_le_mul_of_nonneg_right hbits hscale.le

/-- An integer rounded. -/
def roundInt (p : Nat) (n : Int) : Int := (roundTo p n).floor

theorem roundInt_of_lt {p : Nat} {n : Int} (h : |n| < 2 ^ p) : roundInt p n = n := by
  rw [roundInt, roundTo_intCast h, Rat.floor_intCast]

/-- An integer is rounded to an integer. -/
theorem cast_roundInt {p : Nat} (n : Int) : (roundInt p n : Rat) = roundTo p n := by
  by_cases hlt : |n| < 2 ^ p
  · rw [roundInt_of_lt hlt, roundTo_intCast hlt]
  have hge : (2 : Int) ^ p ≤ |n| := by omega
  have hpos : (0 : Int) < |n| := lt_of_lt_of_le (pow_pos (by decide) p) hge
  have hn : (n : Rat) ≠ 0 := by exact_mod_cast abs_pos.mp hpos
  have hplace : 0 ≤ lastPlace p n := by
    have hlog : (p : Int) ≤ Int.log 2 |(n : Rat)| := by
      refine (Int.zpow_le_iff_le_log (by decide) (abs_pos.mpr hn)).mp ?_
      rw [zpow_natCast]
      exact_mod_cast hge
    rw [lastPlace]
    omega
  obtain ⟨k, hk⟩ := Int.eq_ofNat_of_zero_le hplace
  have hint : roundTo p n
      = ((roundHalfEven ((n : Rat) / 2 ^ lastPlace p n) * 2 ^ k : Int) : Rat) := by
    rw [roundTo, if_neg hn]
    push_cast
    rw [hk, zpow_natCast]
  rw [roundInt, hint, Rat.floor_intCast]

/-- What is below `2 ^ p` after rounding was not rounded. -/
theorem roundInt_eq_self {p : Nat} (hp : 0 < p) {n : Int} (h : |roundInt p n| < 2 ^ p) :
    roundInt p n = n := by
  refine roundInt_of_lt (lt_of_not_ge fun hge => ?_)
  have hround : (2 : Rat) ^ p ≤ |roundTo p n| := by
    refine le_abs_roundTo hp ?_
    exact_mod_cast hge
  rw [← cast_roundInt] at hround
  have hle : (2 : Int) ^ p ≤ |roundInt p n| := by exact_mod_cast hround
  omega

/-! ## The text of an integer -/

/-- The multiples of `10 ^ j` next to `n`, the nearest first. -/
def multiples (n : Int) (j : Nat) : List Int :=
  [roundHalfEven (n / 10 ^ j) * 10 ^ j, n / 10 ^ j * 10 ^ j, (n / 10 ^ j + 1) * 10 ^ j]

/-- The integer that `String(n)` names: the shortest digits that are read back
as `n`, with zeros behind them. -/
def shortest (p : Nat) (n : Int) : Int :=
  (((List.range 22).reverse.flatMap (multiples n)).find? fun c => roundInt p c = n).getD n

/-- The text is read back as the number it was made of. -/
theorem shortest_cases (p : Nat) (n : Int) :
    shortest p n = n ∨ roundInt p (shortest p n) = n := by
  unfold shortest
  cases hc : ((List.range 22).reverse.flatMap (multiples n)).find?
      fun c => roundInt p c = n with
  | none => exact Or.inl rfl
  | some c => exact Or.inr (by simpa using List.find?_some hc)

theorem shortest_of_lt {p : Nat} (hp : 0 < p) {n : Int} (h : |n| < 2 ^ p) :
    shortest p n = n := by
  rcases shortest_cases p n with hself | hback
  · exact hself
  · have hkept := roundInt_eq_self hp (by rwa [hback])
    exact hkept.symm.trans hback

/-- A text below `2 ^ p` names the number itself. -/
theorem shortest_eq_self {p : Nat} {n : Int} (h : |shortest p n| < 2 ^ p) :
    shortest p n = n := by
  rcases shortest_cases p n with hself | hback
  · exact hself
  · rwa [roundInt_of_lt h] at hback

theorem roundInt_nonneg {p : Nat} {n : Int} (h : 0 ≤ n) : 0 ≤ roundInt p n := by
  have hround : (0 : Rat) ≤ roundInt p n := by
    rw [cast_roundInt]
    exact roundTo_nonneg (by exact_mod_cast h)
  exact_mod_cast hround

/-- The text of a number that is not negative has no sign. -/
theorem shortest_nonneg {p : Nat} {n : Int} (h : 0 ≤ n) : 0 ≤ shortest p n := by
  have hpow : ∀ j : Nat, (0 : Int) ≤ 10 ^ j := fun j => by positivity
  have hnext : ∀ j, ∀ c ∈ multiples n j, 0 ≤ c := by
    intro j c hc
    have hdown : 0 ≤ n / 10 ^ j := Int.ediv_nonneg h (hpow j)
    have hround : 0 ≤ roundHalfEven (n / 10 ^ j) := by
      refine le_roundHalfEven ?_
      rw [Int.cast_zero]
      exact div_nonneg (by exact_mod_cast h) (by positivity)
    simp only [multiples, List.mem_cons, List.not_mem_nil, or_false] at hc
    rcases hc with rfl | rfl | rfl
    · exact mul_nonneg hround (hpow j)
    · exact mul_nonneg hdown (hpow j)
    · exact mul_nonneg (by omega) (hpow j)
  unfold shortest
  cases hc : ((List.range 22).reverse.flatMap (multiples n)).find?
      fun c => roundInt p c = n with
  | none => exact h
  | some c =>
      obtain ⟨j, -, hj⟩ := List.mem_flatMap.mp (List.mem_of_find?_eq_some hc)
      exact hnext j c hj

/-- A number whose text has no sign is not negative. -/
theorem nonneg_of_shortest {p : Nat} {n : Int} (h : 0 ≤ shortest p n) : 0 ≤ n := by
  rcases shortest_cases p n with hself | hback
  · exact hself ▸ h
  · have hround : 0 ≤ roundTo p (shortest p n : Int) :=
      roundTo_nonneg (by exact_mod_cast h)
    rw [← cast_roundInt, hback] at hround
    exact_mod_cast hround

example : roundInt 53 (2 ^ 53 + 1) = 2 ^ 53 := by decide +kernel

example : shortest 53 (2 ^ 60) = 1152921504606847000 := by decide +kernel

end InvestApi.Codec
