import Mathlib.Data.List.Basic

/-!
# UTF-16

JavaScript's strings are code units, any of them in any order. A character past
U+FFFF is two units, a high and a low surrogate; a surrogate without its other half
is no character, and where characters are wanted becomes U+FFFD. So a string comes
back from UTF-8 as it was exactly when it has no such half.
-/

namespace InvestApi.Codec

def replacement : Char := Char.ofNat 0xFFFD

theorem toNat_scalar (c : Char) :
    c.toNat < 0xD800 ∨ 0xDFFF < c.toNat ∧ c.toNat < 0x110000 := c.valid

theorem toNat_ofNat {n : Nat} (h : n < 0xD800 ∨ 0xDFFF < n ∧ n < 0x110000) :
    (Char.ofNat n).toNat = n := by
  rw [Char.ofNat, dif_pos h]
  rfl

/-- The code units of a character. -/
def charUnits (c : Char) : List Nat :=
  let n := c.toNat
  if n < 0x10000 then [n]
  else [0xD800 + (n - 0x10000) / 1024, 0xDC00 + (n - 0x10000) % 1024]

/-- The character of a unit that has no other half. -/
def unitChar (u : Nat) : Char :=
  if 0xD800 ≤ u ∧ u ≤ 0xDFFF then replacement else Char.ofNat u

def ofUnits : List Nat → List Char
  | hi :: lo :: us =>
      if (0xD800 ≤ hi ∧ hi ≤ 0xDBFF) ∧ 0xDC00 ≤ lo ∧ lo ≤ 0xDFFF then
        Char.ofNat (0x10000 + (hi - 0xD800) * 1024 + (lo - 0xDC00)) :: ofUnits us
      else unitChar hi :: ofUnits (lo :: us)
  | [u] => [unitChar u]
  | [] => []

theorem charUnits_low {c : Char} (h : c.toNat < 0x80) : charUnits c = [c.toNat] :=
  if_pos (by omega)

theorem ofUnits_cons {u : Nat} (h : ¬(0xD800 ≤ u ∧ u ≤ 0xDBFF)) (us : List Nat) :
    ofUnits (u :: us) = unitChar u :: ofUnits us := by
  cases us with
  | nil => rfl
  | cons lo us => rw [ofUnits, if_neg (fun hu => h hu.1)]

theorem ofUnits_charUnits (c : Char) (us : List Nat) :
    ofUnits (charUnits c ++ us) = c :: ofUnits us := by
  have hc := toNat_scalar c
  rw [charUnits]
  split
  · next h =>
      rw [List.singleton_append, ofUnits_cons (by omega), unitChar, if_neg (by omega),
        Char.ofNat_toNat]
  · next h =>
      have hcode : 0x10000 + (0xD800 + (c.toNat - 0x10000) / 1024 - 0xD800) * 1024
          + (0xDC00 + (c.toNat - 0x10000) % 1024 - 0xDC00) = c.toNat := by omega
      show ofUnits (_ :: _ :: us) = _
      rw [ofUnits, if_pos (by omega), hcode, Char.ofNat_toNat]

theorem ofUnits_flatMap (l : List Char) : ofUnits (l.flatMap charUnits) = l := by
  induction l with
  | nil => rfl
  | cons c l ih => rw [List.flatMap_cons, ofUnits_charUnits, ih]

/-! ## From units and back -/

/-- A unit alone comes back unless it is a surrogate. -/
theorem charUnits_unitChar {u : Nat} (h : u < 0x10000) : charUnits (unitChar u)
    = if 0xD800 ≤ u ∧ u ≤ 0xDFFF then [0xFFFD] else [u] := by
  rw [unitChar]
  split
  · rfl
  · next hu =>
      have hn : (Char.ofNat u).toNat = u := toNat_ofNat (by omega)
      rw [charUnits, hn, if_pos h]

theorem charUnits_pair {hi lo : Nat} (hhi : 0xD800 ≤ hi ∧ hi ≤ 0xDBFF)
    (hlo : 0xDC00 ≤ lo ∧ lo ≤ 0xDFFF) :
    charUnits (Char.ofNat (0x10000 + (hi - 0xD800) * 1024 + (lo - 0xDC00))) = [hi, lo] := by
  have hhigh : 0xD800 + (0x10000 + (hi - 0xD800) * 1024 + (lo - 0xDC00) - 0x10000) / 1024 = hi := by
    omega
  have hlow : 0xDC00 + (0x10000 + (hi - 0xD800) * 1024 + (lo - 0xDC00) - 0x10000) % 1024 = lo := by
    omega
  rw [charUnits, toNat_ofNat (by omega), if_neg (by omega), hhigh, hlow]

structure JsString where
  units : List UInt16
  deriving DecidableEq, Repr

namespace JsString

def codes (s : JsString) : List Nat := s.units.map UInt16.toNat

/-- The text as it goes out in UTF-8. -/
def utf8 (s : JsString) : String := String.ofList (ofUnits s.codes)

def ofString (s : String) : JsString := ⟨(s.toList.flatMap charUnits).map UInt16.ofNat⟩

theorem codes_lt (s : JsString) : ∀ u ∈ s.codes, u < 0x10000 := by
  intro u hu
  obtain ⟨v, _, rfl⟩ := List.mem_map.mp hu
  exact v.toNat_lt

theorem map_ofNat_codes (s : JsString) : s.codes.map UInt16.ofNat = s.units := by
  rw [codes, List.map_map]
  exact (List.map_congr_left fun u _ => UInt16.ofNat_toNat).trans (List.map_id _)

theorem charUnits_lt (c : Char) : ∀ u ∈ charUnits c, u < 0x10000 := by
  have hc := toNat_scalar c
  rw [charUnits]
  split
  · intro u hu
    rw [List.mem_singleton.mp hu]
    omega
  · intro u hu
    simp only [List.mem_cons, List.not_mem_nil, or_false] at hu
    omega

theorem codes_ofString (s : String) : (ofString s).codes = s.toList.flatMap charUnits := by
  rw [codes, ofString, List.map_map]
  refine (List.map_congr_left fun u hu => ?_).trans (List.map_id _)
  obtain ⟨c, _, hc⟩ := List.mem_flatMap.mp hu
  have hlt := charUnits_lt c u hc
  rw [Function.comp_apply, UInt16.toNat_ofNat', Nat.mod_eq_of_lt (by omega), id_eq]

theorem utf8_ofString (s : String) : (ofString s).utf8 = s := by
  rw [utf8, codes_ofString, ofUnits_flatMap, String.ofList_toList]

theorem ofString_injective : Function.Injective ofString :=
  Function.LeftInverse.injective utf8_ofString

end JsString

end InvestApi.Codec
