import Mathlib.Algebra.Order.Field.Basic
import Mathlib.Algebra.Order.Field.Rat
import Mathlib.Tactic.FieldSimp
import Mathlib.Tactic.IntervalCases
import Mathlib.Tactic.Ring
import InvestApi.Codec.Json

/-!
# The text of a number

A number that has finitely many decimals is printed in one of four forms: its
digits alone, with a point among them, with a point before them, or with an
exponent. Each form is read back as the number it was printed from.

The digits of a double are the shortest that name it. Here a number is the
decimal those digits name, so the digits are those of the number itself.
-/

namespace InvestApi.Codec

/-- The least number of places after the point that `x` needs. -/
def places (x : Rat) : Option Nat :=
  (List.range (x.den.log2 + 1)).find? fun m => 10 ^ m % x.den = 0

def dropZeros (ds : List Char) : List Char :=
  (ds.reverse.dropWhile (· = '0')).reverse

/-- `Number::toString` of `s / 10 ^ m`, where `m` is least. -/
def magnitudeText (s m : Nat) : List Char :=
  let ds := Nat.toDigits 10 s
  if m = 0 ∧ ds.length ≤ 21 then ds
  else if 0 < m ∧ m < ds.length ∧ ds.length ≤ m + 21 then
    ds.take (ds.length - m) ++ '.' :: ds.drop (ds.length - m)
  else if ds.length ≤ m ∧ m < ds.length + 6 then
    '0' :: '.' :: (List.replicate (m - ds.length) '0' ++ ds)
  else
    let exponent : Int := ds.length - m - 1
    let shown := dropZeros ds
    shown.take 1 ++ ((if shown.length = 1 then [] else '.' :: shown.drop 1) ++
      'e' :: (if 0 ≤ exponent then '+' else '-') :: Nat.toDigits 10 exponent.natAbs)

/-- How often `x` is to be shifted, and its digits. -/
def numberText (x : Rat) : List Char :=
  let m := (places x).getD 0
  let text := magnitudeText (x.num.natAbs * 10 ^ m / x.den) m
  if x < 0 then '-' :: text else text

example : numberText (-1 / 8) = "-0.125".toList := by decide +kernel
example : numberText (10 ^ 21) = "1e+21".toList := by decide +kernel
example : numberText (12345 / 1000) = "12.345".toList := by decide +kernel
example : numberText (3 / 10 ^ 8) = "3e-8".toList := by decide +kernel
example : numberText (125 / 10 ^ 8) = "0.00000125".toList := by decide +kernel

/-! ## Reading digits -/

/-- What follows the digits of a number. -/
def NoDigit : List Char → Prop
  | [] => True
  | c :: _ => isDigit c = false

/-- What follows a number. -/
def Ends : List Char → Prop
  | [] => True
  | c :: _ => c = ',' ∨ c = '}' ∨ c = ']'

theorem Ends.noDigit {rest : List Char} (h : Ends rest) : NoDigit rest := by
  match rest, h with
  | [], _ => trivial
  | _ :: _, .inl rfl => rfl
  | _ :: _, .inr (.inl rfl) => rfl
  | _ :: _, .inr (.inr rfl) => rfl

theorem Ends.fracPart {rest : List Char} (h : Ends rest) :
    fracPart rest = some ([], rest) := by
  match rest, h with
  | [], _ => rfl
  | _ :: _, .inl rfl => rfl
  | _ :: _, .inr (.inl rfl) => rfl
  | _ :: _, .inr (.inr rfl) => rfl

theorem Ends.expPart {rest : List Char} (h : Ends rest) :
    expPart rest = some (0, rest) := by
  match rest, h with
  | [], _ => rfl
  | _ :: _, .inl rfl => rfl
  | _ :: _, .inr (.inl rfl) => rfl
  | _ :: _, .inr (.inr rfl) => rfl

def AllDigits (ds : List Char) : Prop := ∀ c ∈ ds, isDigit c = true

theorem NoDigit.split {rest : List Char} (h : NoDigit rest) {ds : List Char}
    (hds : AllDigits ds) :
    (ds ++ rest).takeWhile isDigit = ds ∧ (ds ++ rest).dropWhile isDigit = rest := by
  have hrest : rest.takeWhile isDigit = [] ∧ rest.dropWhile isDigit = rest := by
    match rest, h with
    | [], _ => exact ⟨rfl, rfl⟩
    | c :: cs, h =>
        have hc : isDigit c = false := h
        simp [hc]
  rw [List.takeWhile_append_of_pos hds, List.dropWhile_append_of_pos hds, hrest.1, hrest.2,
    List.append_nil]
  exact ⟨rfl, rfl⟩

theorem digits1_append {ds rest : List Char} (hne : ds ≠ []) (hds : AllDigits ds)
    (h : NoDigit rest) : digits1 (ds ++ rest) = some (ds, rest) := by
  cases ds with
  | nil => exact absurd rfl hne
  | cons d ds =>
      obtain ⟨htake, hdrop⟩ := h.split fun c hc => hds c (List.mem_cons_of_mem d hc)
      rw [List.cons_append, digits1, if_pos (hds d List.mem_cons_self), htake, hdrop]

theorem intPart_append {d : Char} {ds rest : List Char} (hd : d ≠ '0')
    (hds : AllDigits (d :: ds)) (h : NoDigit rest) :
    intPart (d :: ds ++ rest) = some (d :: ds, rest) := by
  rw [List.cons_append, intPart.eq_def]
  split
  · next heq =>
      injection heq with heq _
      exact absurd heq hd
  · exact digits1_append (List.cons_ne_nil d ds) hds h

theorem fracPart_append {ds rest : List Char} (hne : ds ≠ []) (hds : AllDigits ds)
    (h : NoDigit rest) : fracPart ('.' :: (ds ++ rest)) = some (ds, rest) :=
  digits1_append hne hds h

theorem unsigned_of {sign e : Int} {cs cs₁ cs₂ rest int frac : List Char}
    (hint : intPart cs = some (int, cs₁)) (hfrac : fracPart cs₁ = some (frac, cs₂))
    (hexp : expPart cs₂ = some (e, rest)) :
    unsigned sign cs
      = some (scaled (sign * digitsValue (int ++ frac)) (e - frac.length), rest) := by
  rw [unsigned, hint]
  show (fracPart cs₁).bind _ = _
  rw [hfrac]
  show (expPart cs₂).bind _ = _
  rw [hexp]
  rfl

theorem scaled_eq (n e : Int) : scaled n e = (n : Rat) * (10 : Rat) ^ e := by
  rw [scaled]
  split
  · next h =>
      obtain ⟨k, rfl⟩ := Int.eq_ofNat_of_zero_le h
      simp
  · next h =>
      obtain ⟨k, hk⟩ : ∃ k : Nat, e = -(k : Int) := ⟨(-e).toNat, by omega⟩
      subst hk
      rw [Rat.mkRat_eq_div, zpow_neg, zpow_natCast, neg_neg, Int.toNat_natCast]
      simp [div_eq_mul_inv]

/-! ## Printed digits -/

theorem isDigit_toDigits (n : Nat) : AllDigits (Nat.toDigits 10 n) := by
  intro c hc
  have hdigit : c.isDigit = true := Nat.isDigit_of_mem_toDigits (by decide) (by decide) hc
  rw [← hdigit, Bool.eq_iff_iff]
  simp only [isDigit, Char.isDigit, Char.le_def, UInt32.le_iff_toNat_le, decide_eq_true_eq,
    Bool.and_eq_true, ge_iff_le]

theorem digitsValue_toDigits (n : Nat) : digitsValue (Nat.toDigits 10 n) = n :=
  Nat.ofDigitChars_ten_toDigits

theorem digitsValue_append_zeros (ds : List Char) (z : Nat) :
    digitsValue (ds ++ List.replicate z '0') = 10 ^ z * digitsValue ds := by
  rw [digitsValue, Nat.ofDigitChars_append, Nat.ofDigitChars_replicate_zero, digitsValue]

theorem digitsValue_zeros_append (z : Nat) (ds : List Char) :
    digitsValue (List.replicate z '0' ++ ds) = digitsValue ds := by
  rw [digitsValue, Nat.ofDigitChars_append, Nat.ofDigitChars_replicate_zero, Nat.mul_zero,
    digitsValue]

/-- The digits of a positive number begin with no zero. -/
theorem toDigits_cons {n : Nat} (h : 0 < n) :
    ∃ d ds, Nat.toDigits 10 n = d :: ds ∧ d ≠ '0' := by
  induction n using Nat.strongRecOn with
  | ind n ih =>
      rcases Nat.lt_or_ge n 10 with hlt | hge
      · refine ⟨Nat.digitChar n, [], Nat.toDigits_of_lt_base hlt, ?_⟩
        interval_cases n <;> decide
      · obtain ⟨d, ds, hds, hd⟩ := ih (n / 10) (by omega) (by omega)
        refine ⟨d, ds ++ [Nat.digitChar (n % 10)], ?_, hd⟩
        rw [Nat.toDigits_of_base_le (by decide) hge, hds, List.cons_append]

theorem dropZeros_append (ds : List Char) :
    ∃ z, ds = dropZeros ds ++ List.replicate z '0' := by
  refine ⟨(ds.reverse.takeWhile (· = '0')).length, ?_⟩
  have hzeros : ds.reverse.takeWhile (· = '0')
      = List.replicate (ds.reverse.takeWhile (· = '0')).length '0' := by
    refine List.eq_replicate_of_mem fun c hc => ?_
    simpa using List.mem_takeWhile_imp hc
  have hsplit := List.takeWhile_append_dropWhile (p := (· = '0')) (l := ds.reverse)
  rw [hzeros] at hsplit
  have hback := congrArg List.reverse hsplit
  rw [List.reverse_append, List.reverse_reverse, List.reverse_replicate] at hback
  exact hback.symm

/-! ## The four forms -/

/-- `sign * s / 10 ^ m`. -/
def shifted (sign : Int) (s m : Nat) : Rat := (sign * s : Int) * (10 : Rat) ^ (-(m : Int))

theorem scaled_shifted {sign e : Int} {s m n z : Nat} (hs : s = 10 ^ z * n)
    (he : e = z - m) : scaled (sign * n) e = shifted sign s m := by
  have hsplit : (10 : Rat) ^ e = 10 ^ z * 10 ^ (-(m : Int)) := by
    rw [he, sub_eq_add_neg, zpow_add₀ (by norm_num), zpow_natCast]
  rw [scaled_eq, shifted, hsplit, hs]
  push_cast
  ring

theorem scaled_places {sign e : Int} {s m : Nat} (he : e = -(m : Int)) :
    scaled (sign * s) e = shifted sign s m := by
  rw [scaled_eq, shifted, he]

theorem unsigned_plain (sign : Int) (s : Nat) {rest : List Char} (h : Ends rest) :
    unsigned sign (Nat.toDigits 10 s ++ rest) = some (shifted sign s 0, rest) := by
  have hint : intPart (Nat.toDigits 10 s ++ rest) = some (Nat.toDigits 10 s, rest) := by
    rcases Nat.eq_zero_or_pos s with rfl | hpos
    · rfl
    · obtain ⟨d, ds, hds, hd⟩ := toDigits_cons hpos
      rw [hds]
      exact intPart_append hd (hds ▸ isDigit_toDigits s) h.noDigit
  rw [unsigned_of hint h.fracPart h.expPart, List.append_nil, digitsValue_toDigits]
  congr 2
  exact scaled_places rfl

theorem unsigned_pointed (sign : Int) {s m : Nat} (hs : 0 < s) (hm : 0 < m)
    (hlen : m < (Nat.toDigits 10 s).length) {rest : List Char} (h : Ends rest) :
    unsigned sign ((Nat.toDigits 10 s).take ((Nat.toDigits 10 s).length - m) ++
        '.' :: (Nat.toDigits 10 s).drop ((Nat.toDigits 10 s).length - m) ++ rest)
      = some (shifted sign s m, rest) := by
  generalize hk : (Nat.toDigits 10 s).length - m = k
  obtain ⟨d, ds, hds, hd⟩ := toDigits_cons hs
  have hall := isDigit_toDigits s
  have hdrop : (Nat.toDigits 10 s).drop k ≠ [] := by
    intro hnil
    have := congrArg List.length hnil
    rw [List.length_drop] at this
    simp at this
    omega
  have hlendrop : ((Nat.toDigits 10 s).drop k).length = m := by
    rw [List.length_drop]
    omega
  have hint : intPart ((Nat.toDigits 10 s).take k ++
      '.' :: ((Nat.toDigits 10 s).drop k ++ rest))
        = some ((Nat.toDigits 10 s).take k, '.' :: ((Nat.toDigits 10 s).drop k ++ rest)) := by
    obtain ⟨k, rfl⟩ : ∃ j, k = j + 1 := ⟨k - 1, by omega⟩
    rw [hds, List.take_succ_cons]
    refine intPart_append hd (fun c hc => hall c ?_) rfl
    rw [hds]
    exact List.mem_of_mem_take (i := k + 1) (by simpa using hc)
  have hfrac := fracPart_append hdrop (fun c hc => hall c (List.mem_of_mem_drop hc)) h.noDigit
  rw [List.append_assoc, List.cons_append, unsigned_of hint hfrac h.expPart,
    List.take_append_drop, digitsValue_toDigits, hlendrop, scaled_places (Int.zero_sub _)]

theorem unsigned_leading (sign : Int) {s m : Nat} (hlen : (Nat.toDigits 10 s).length ≤ m)
    {rest : List Char} (h : Ends rest) :
    unsigned sign ('0' :: '.' ::
        (List.replicate (m - (Nat.toDigits 10 s).length) '0' ++ Nat.toDigits 10 s) ++ rest)
      = some (shifted sign s m, rest) := by
  generalize hz : m - (Nat.toDigits 10 s).length = z
  have hint : intPart ('0' :: '.' :: (List.replicate z '0' ++ Nat.toDigits 10 s ++ rest))
      = some (['0'], '.' :: (List.replicate z '0' ++ Nat.toDigits 10 s ++ rest)) := rfl
  have hall : AllDigits (List.replicate z '0' ++ Nat.toDigits 10 s) := by
    intro c hc
    rcases List.mem_append.mp hc with hzero | hdigit
    · rw [List.eq_of_mem_replicate hzero]
      decide
    · exact isDigit_toDigits s c hdigit
  have hne : List.replicate z '0' ++ Nat.toDigits 10 s ≠ [] := by
    simp
  have hvalue : digitsValue (['0'] ++ (List.replicate z '0' ++ Nat.toDigits 10 s)) = s := by
    rw [← List.append_assoc]
    exact (digitsValue_zeros_append (z + 1) _).trans (digitsValue_toDigits s)
  have hlength : (List.replicate z '0' ++ Nat.toDigits 10 s).length = m := by
    rw [List.length_append, List.length_replicate]
    omega
  show unsigned sign ('0' :: '.' :: (List.replicate z '0' ++ Nat.toDigits 10 s ++ rest)) = _
  rw [unsigned_of hint (fracPart_append hne hall h.noDigit) h.expPart, hvalue, hlength,
    scaled_places (Int.zero_sub _)]

theorem expPart_printed (e : Int) {rest : List Char} (h : Ends rest) :
    expPart ('e' :: (if 0 ≤ e then '+' else '-') :: (Nat.toDigits 10 e.natAbs ++ rest))
      = some (e, rest) := by
  have hdigits := digits1_append (Nat.toDigits_ne_nil (b := 10) (n := e.natAbs))
    (isDigit_toDigits e.natAbs) h.noDigit
  have hvalue := digitsValue_toDigits e.natAbs
  by_cases he : 0 ≤ e
  · rw [if_pos he]
    show (digits1 _).map _ = _
    rw [hdigits, Option.map_some, hvalue]
    congr 2
    omega
  · rw [if_neg he]
    show (digits1 _).map _ = _
    rw [hdigits, Option.map_some, hvalue]
    congr 2
    omega

theorem unsigned_scientific (sign e : Int) {d : Char} {tail rest : List Char} (hd : d ≠ '0')
    (hall : AllDigits (d :: tail)) (h : Ends rest) :
    unsigned sign (d :: ((if tail = [] then [] else '.' :: tail) ++
        'e' :: (if 0 ≤ e then '+' else '-') :: (Nat.toDigits 10 e.natAbs ++ rest)))
      = some (scaled (sign * digitsValue (d :: tail)) (e - tail.length), rest) := by
  have hexp := expPart_printed e h
  have hafter : ∀ cs, NoDigit ('e' :: cs) ∧ fracPart ('e' :: cs) = some ([], 'e' :: cs) :=
    fun _ => ⟨rfl, rfl⟩
  specialize hafter ((if 0 ≤ e then '+' else '-') :: (Nat.toDigits 10 e.natAbs ++ rest))
  generalize 'e' :: (if 0 ≤ e then '+' else '-') :: (Nat.toDigits 10 e.natAbs ++ rest)
    = after at hexp hafter
  cases tail with
  | nil =>
      have hint : intPart (d :: after) = some ([d], after) := intPart_append hd hall hafter.1
      rw [if_pos rfl, List.nil_append, unsigned_of hint hafter.2 hexp]
      rfl
  | cons t tail =>
      have hint : intPart (d :: '.' :: (t :: tail ++ after))
          = some ([d], '.' :: (t :: tail ++ after)) :=
        @intPart_append d [] _ hd (fun c hc => hall c (List.mem_cons.mpr
          (Or.inl (List.mem_singleton.mp hc)))) rfl
      have hfrac := fracPart_append (List.cons_ne_nil t tail)
        (fun c hc => hall c (List.mem_cons_of_mem d hc)) hafter.1
      rw [if_neg (List.cons_ne_nil t tail), List.cons_append, unsigned_of hint hfrac hexp]
      rfl

theorem unsigned_exponential (sign : Int) {s m : Nat} (hs : 0 < s) {rest : List Char}
    (h : Ends rest) {e : Int} (he : e = (Nat.toDigits 10 s).length - m - 1) :
    unsigned sign ((dropZeros (Nat.toDigits 10 s)).take 1 ++
        ((if (dropZeros (Nat.toDigits 10 s)).length = 1 then []
          else '.' :: (dropZeros (Nat.toDigits 10 s)).drop 1) ++
        'e' :: (if 0 ≤ e then '+' else '-') :: Nat.toDigits 10 e.natAbs) ++ rest)
      = some (shifted sign s m, rest) := by
  obtain ⟨d, ds, hds, hd⟩ := toDigits_cons hs
  obtain ⟨z, hz⟩ := dropZeros_append (Nat.toDigits 10 s)
  have hall := isDigit_toDigits s
  have hvalue := digitsValue_toDigits s
  generalize dropZeros (Nat.toDigits 10 s) = shown at hz ⊢
  obtain ⟨tail, rfl⟩ : ∃ tail, shown = d :: tail := by
    cases shown with
    | nil =>
        rw [hds, List.nil_append] at hz
        have hmem : d ∈ List.replicate z '0' := by
          rw [← hz]
          exact List.mem_cons_self
        exact absurd (List.eq_of_mem_replicate hmem) hd
    | cons c tail =>
        rw [hds, List.cons_append] at hz
        exact ⟨tail, by rw [(List.cons.inj hz).1]⟩
  rw [hz] at he hall hvalue
  rw [digitsValue_append_zeros] at hvalue
  rw [List.length_append, List.length_cons, List.length_replicate] at he
  have hshown : AllDigits (d :: tail) := fun c hc => hall c (List.mem_append_left _ hc)
  have hplaces : e - tail.length = z - m := by omega
  have hempty : (d :: tail).length = 1 ↔ tail = [] := by simp
  have hread := unsigned_scientific sign e hd hshown h
  rw [hplaces, scaled_shifted hvalue.symm rfl] at hread
  simpa only [hempty, List.take_succ_cons, List.take_zero, List.drop_succ_cons, List.drop_zero,
    List.cons_append, List.nil_append, List.append_assoc] using hread

theorem unsigned_magnitudeText (sign : Int) {s m : Nat} (hs : 0 < s ∨ m = 0)
    {rest : List Char} (h : Ends rest) :
    unsigned sign (magnitudeText s m ++ rest) = some (shifted sign s m, rest) := by
  unfold magnitudeText
  dsimp only
  split
  · next hplain =>
      rw [hplain.1]
      exact unsigned_plain sign s h
  · next hplain =>
      have hpos : 0 < s := by
        rcases hs with hs | hm
        · exact hs
        · -- Zero has one digit.
          rcases Nat.eq_zero_or_pos s with rfl | hpos
          · exact absurd ⟨hm, by decide⟩ hplain
          · exact hpos
      split
      · next hpoint => exact unsigned_pointed sign hpos hpoint.1 hpoint.2.1 h
      · split
        · next hlead => exact unsigned_leading sign hlead.1 h
        · exact unsigned_exponential sign hpos h rfl

/-! ## Numbers -/

/-- A number that has finitely many decimals, as every double has. -/
def IsDecimal (x : Rat) : Bool := (places x).isSome

/-- The digits of `x` with the point `m` places before their end. -/
theorem digits_of_places {x : Rat} {m : Nat} (h : places x = some m) :
    shifted 1 (x.num.natAbs * 10 ^ m / x.den) m = |x| ∧
      (0 < x.num.natAbs * 10 ^ m / x.den ∨ m = 0) := by
  have hdvd : x.den ∣ 10 ^ m := by
    have hfound := List.find?_some h
    exact Nat.dvd_of_mod_eq_zero (by simpa using hfound)
  obtain ⟨k, hk⟩ := hdvd
  have hdigits : x.num.natAbs * 10 ^ m / x.den = x.num.natAbs * k := by
    rw [hk, Nat.mul_left_comm, Nat.mul_div_cancel_left _ x.den_pos]
  have hpow : (10 : Rat) ^ m = x.den * k := by exact_mod_cast hk
  have hk0 : k ≠ 0 := by
    rintro rfl
    exact absurd hk (by positivity)
  rw [hdigits]
  constructor
  · have hden : (x.den : Rat) ≠ 0 := by exact_mod_cast x.den_nz
    have hkq : (k : Rat) ≠ 0 := by exact_mod_cast hk0
    rw [shifted, zpow_neg, zpow_natCast, hpow, Rat.abs_def, Rat.divInt_eq_div]
    push_cast
    field_simp
  · rcases Nat.eq_zero_or_pos x.num.natAbs with hzero | hpos
    · -- Zero needs no places.
      have hx : x = 0 := Rat.num_eq_zero.mp (Int.natAbs_eq_zero.mp hzero)
      subst hx
      exact Or.inr (Option.some.inj h).symm
    · exact Or.inl (Nat.mul_pos hpos (Nat.pos_of_ne_zero hk0))

theorem shifted_neg_one (s m : Nat) : shifted (-1) s m = -shifted 1 s m := by
  rw [shifted, shifted]
  push_cast
  ring

/-- A printed number is read as what it was. -/
theorem readNumber_numberText {x : Rat} (hx : IsDecimal x = true) {rest : List Char}
    (h : Ends rest) : readNumber (numberText x ++ rest) = some (x, rest) := by
  obtain ⟨m, hm⟩ := Option.isSome_iff_exists.mp hx
  obtain ⟨habs, hs⟩ := digits_of_places hm
  have hread := fun sign => unsigned_magnitudeText sign hs h
  unfold numberText
  rw [hm, Option.getD_some]
  dsimp only
  generalize x.num.natAbs * 10 ^ m / x.den = s at habs hs hread ⊢
  by_cases hneg : x < 0
  · rw [if_pos hneg, List.cons_append, readNumber, hread, shifted_neg_one, habs,
      abs_of_neg hneg, neg_neg]
  · rw [if_neg hneg]
    have hone := hread 1
    rw [habs, abs_of_nonneg (le_of_not_gt hneg)] at hone
    rw [readNumber.eq_def]
    split
    · next cs heq =>
        -- No magnitude begins with a sign.
        rw [heq] at hone
        have hnone : unsigned 1 ('-' :: cs) = none := rfl
        rw [hnone] at hone
        simp at hone
    · exact hone

end InvestApi.Codec
