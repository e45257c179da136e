import InvestApi.Codec.Utf16
import Mathlib.Algebra.Order.Ring.Nat
import Mathlib.Data.List.TakeWhile
import Mathlib.Tactic.IntervalCases

/-!
# Hex digits, base64url and UTF-8

Bytes are natural numbers below 256. `encode` writes base64url without padding;
`decode` reads it the lenient way: of every UTF-16 code unit the low byte, either
alphabet, anything else skipped, up to the first `=`. So U+0141 is read as `A`.
`utf8Decode` never fails: what is not UTF-8 becomes U+FFFD, one for each maximal part
of a sequence.
-/

namespace InvestApi.Codec

def hexValue (c : Char) : Option Nat :=
  if '0' ≤ c ∧ c ≤ '9' then some (c.toNat - '0'.toNat)
  else if 'a' ≤ c ∧ c ≤ 'f' then some (c.toNat - 'a'.toNat + 10)
  else if 'A' ≤ c ∧ c ≤ 'F' then some (c.toNat - 'A'.toNat + 10)
  else none

theorem hexValue_digitChar {d : Nat} (h : d < 16) :
    hexValue (Nat.digitChar d) = some d := by
  interval_cases d <;> rfl

/-! ## Low bytes -/

/-- What is left of a code unit in one byte. -/
def lowByte (u : Nat) : Char := Char.ofNat (u % 256)

theorem lowByte_charUnits {c : Char} (h : c.toNat < 256) :
    (charUnits c).map lowByte = [c] := by
  rw [charUnits, if_pos (by omega), List.map_singleton, lowByte, Nat.mod_eq_of_lt h,
    Char.ofNat_toNat]

/-- A text of single bytes is left as it is. -/
theorem lowBytes_eq_self {text : List Char} (h : ∀ c ∈ text, c.toNat < 256) :
    (text.flatMap charUnits).map lowByte = text := by
  induction text with
  | nil => rfl
  | cons c text ih =>
      rw [List.flatMap_cons, List.map_append, lowByte_charUnits (h c (by simp)),
        ih fun d hd => h d (by simp [hd]), List.singleton_append]

/-! ## base64url -/

def sextetChar (n : Nat) : Char :=
  if n < 26 then Char.ofNat (65 + n)
  else if n < 52 then Char.ofNat (71 + n)
  else if n < 62 then Char.ofNat (n - 4)
  else if n = 62 then '-'
  else '_'

def sextetOf (c : Char) : Option Nat :=
  if 'A' ≤ c ∧ c ≤ 'Z' then some (c.toNat - 65)
  else if 'a' ≤ c ∧ c ≤ 'z' then some (c.toNat - 71)
  else if '0' ≤ c ∧ c ≤ '9' then some (c.toNat + 4)
  else if c = '-' ∨ c = '+' then some 62
  else if c = '_' ∨ c = '/' then some 63
  else none

def toSextets : List Nat → List Nat
  | x :: y :: z :: rest =>
      x / 4 :: (x % 4 * 16 + y / 16) :: (y % 16 * 4 + z / 64) :: z % 64 :: toSextets rest
  | [x, y] => [x / 4, x % 4 * 16 + y / 16, y % 16 * 4]
  | [x] => [x / 4, x % 4 * 16]
  | [] => []

def ofSextets : List Nat → List Nat
  | a :: b :: c :: d :: rest =>
      (a * 4 + b / 16) :: (b % 16 * 16 + c / 4) :: (c % 4 * 64 + d) :: ofSextets rest
  | [a, b, c] => [a * 4 + b / 16, b % 16 * 16 + c / 4]
  | [a, b] => [a * 4 + b / 16]
  | _ => []

def encode (bytes : List Nat) : List Char := (toSextets bytes).map sextetChar

def decode (text : List Char) : List Nat :=
  ofSextets
    ((((text.flatMap charUnits).map lowByte).takeWhile (· ≠ '=')).filterMap sextetOf)

theorem sextetOf_sextetChar {n : Nat} (h : n < 64) : sextetOf (sextetChar n) = some n := by
  interval_cases n <;> decide

theorem sextetChar_ne_pad {n : Nat} (h : n < 64) : sextetChar n ≠ '=' := by
  interval_cases n <;> decide

theorem sextetChar_lt {n : Nat} (h : n < 64) : (sextetChar n).toNat < 256 := by
  interval_cases n <;> decide

theorem toSextets_lt : ∀ {bytes : List Nat}, (∀ b ∈ bytes, b < 256) →
    ∀ n ∈ toSextets bytes, n < 64
  | x :: y :: z :: rest, h => by
      have hx := h x (by simp)
      have hy := h y (by simp)
      have hz := h z (by simp)
      have hrest := @toSextets_lt rest fun b hb => h b (by simp [hb])
      intro n hn
      rw [toSextets] at hn
      simp only [List.mem_cons] at hn
      rcases hn with rfl | rfl | rfl | rfl | hn
      · omega
      · omega
      · omega
      · omega
      · exact hrest n hn
  | [x, y], h => by
      have hx := h x (by simp)
      have hy := h y (by simp)
      intro n hn
      simp only [toSextets, List.mem_cons, List.not_mem_nil, or_false] at hn
      omega
  | [x], h => by
      have hx := h x (by simp)
      intro n hn
      simp only [toSextets, List.mem_cons, List.not_mem_nil, or_false] at hn
      omega
  | [], _ => by simp [toSextets]

theorem ofSextets_toSextets : ∀ {bytes : List Nat}, (∀ b ∈ bytes, b < 256) →
    ofSextets (toSextets bytes) = bytes
  | x :: y :: z :: rest, h => by
      have hy := h y (by simp)
      have hz := h z (by simp)
      have hrest := @ofSextets_toSextets rest fun b hb => h b (by simp [hb])
      rw [toSextets, ofSextets, hrest]
      have h₁ : x / 4 * 4 + (x % 4 * 16 + y / 16) / 16 = x := by omega
      have h₂ : (x % 4 * 16 + y / 16) % 16 * 16 + (y % 16 * 4 + z / 64) / 4 = y := by omega
      have h₃ : (y % 16 * 4 + z / 64) % 4 * 64 + z % 64 = z := by omega
      rw [h₁, h₂, h₃]
  | [x, y], h => by
      have hy := h y (by simp)
      have h₁ : x / 4 * 4 + (x % 4 * 16 + y / 16) / 16 = x := by omega
      have h₂ : (x % 4 * 16 + y / 16) % 16 * 16 + y % 16 * 4 / 4 = y := by omega
      rw [toSextets, ofSextets, h₁, h₂]
  | [x], _ => by
      have h₁ : x / 4 * 4 + x % 4 * 16 / 16 = x := by omega
      rw [toSextets, ofSextets, h₁]
  | [], _ => rfl

theorem decode_encode {bytes : List Nat} (h : ∀ b ∈ bytes, b < 256) :
    decode (encode bytes) = bytes := by
  have hlt := toSextets_lt h
  have hbyte : ∀ c ∈ encode bytes, c.toNat < 256 := by
    intro c hc
    obtain ⟨n, hn, rfl⟩ := List.mem_map.mp hc
    exact sextetChar_lt (hlt n hn)
  have hkeep : (encode bytes).takeWhile (· ≠ '=') = encode bytes := by
    rw [List.takeWhile_eq_self_iff]
    intro c hc
    obtain ⟨n, hn, rfl⟩ := List.mem_map.mp hc
    simpa using sextetChar_ne_pad (hlt n hn)
  have hread : ∀ l : List Nat, (∀ n ∈ l, n < 64) →
      (l.map sextetChar).filterMap sextetOf = l := by
    intro l hl
    induction l with
    | nil => rfl
    | cons n l ih =>
        rw [List.map_cons, List.filterMap_cons, sextetOf_sextetChar (hl n (by simp))]
        dsimp only
        rw [ih fun m hm => hl m (by simp [hm])]
  rw [decode, lowBytes_eq_self hbyte, hkeep, encode, hread _ hlt, ofSextets_toSextets h]

example : decode [Char.ofNat 0x141, 'A'] = [0] := by decide

/-! ## UTF-8 -/

def utf8Encode (c : Char) : List Nat :=
  let n := c.toNat
  if n < 0x80 then [n]
  else if n < 0x800 then [0xC0 + n / 64, 0x80 + n % 64]
  else if n < 0x10000 then [0xE0 + n / 4096, 0x80 + n / 64 % 64, 0x80 + n % 64]
  else [0xF0 + n / 262144, 0x80 + n / 4096 % 64, 0x80 + n / 64 % 64, 0x80 + n % 64]

/-- A sequence under way: `more` bytes to come, the next one in a range. -/
structure Utf8Need where
  more : Nat
  code : Nat
  lower : Nat
  upper : Nat

/-- A byte where a character starts. -/
def utf8Lead (b : Nat) : Char ⊕ Utf8Need :=
  if b < 0x80 then .inl (Char.ofNat b)
  else if 0xC2 ≤ b ∧ b ≤ 0xDF then .inr ⟨1, b - 0xC0, 0x80, 0xBF⟩
  else if 0xE0 ≤ b ∧ b ≤ 0xEF then
    .inr ⟨2, b - 0xE0, if b = 0xE0 then 0xA0 else 0x80, if b = 0xED then 0x9F else 0xBF⟩
  else if 0xF0 ≤ b ∧ b ≤ 0xF4 then
    .inr ⟨3, b - 0xF0, if b = 0xF0 then 0x90 else 0x80, if b = 0xF4 then 0x8F else 0xBF⟩
  else .inl replacement

def utf8Decode : Option Utf8Need → List Nat → List Char
  | none, [] => []
  | some _, [] => [replacement]
  | none, b :: bs =>
      match utf8Lead b with
      | .inl c => c :: utf8Decode none bs
      | .inr need => utf8Decode (some need) bs
  | some need, b :: bs =>
      if need.lower ≤ b ∧ b ≤ need.upper then
        let code := need.code * 64 + (b - 0x80)
        if need.more = 1 then Char.ofNat code :: utf8Decode none bs
        else utf8Decode (some ⟨need.more - 1, code, 0x80, 0xBF⟩) bs
      else
        -- The byte that does not fit is looked at again, as a first one.
        match utf8Lead b with
        | .inl c => replacement :: c :: utf8Decode none bs
        | .inr need => replacement :: utf8Decode (some need) bs

/-! ## What is encoded is decoded -/

theorem utf8Encode_lt (c : Char) : ∀ b ∈ utf8Encode c, b < 256 := by
  have hc := toNat_scalar c
  unfold utf8Encode
  intro b hb
  dsimp only at hb
  split at hb
  · simp only [List.mem_singleton] at hb
    omega
  · split at hb
    · simp only [List.mem_cons, List.not_mem_nil, or_false] at hb
      omega
    · split at hb
      · simp only [List.mem_cons, List.not_mem_nil, or_false] at hb
        omega
      · simp only [List.mem_cons, List.not_mem_nil, or_false] at hb
        omega

theorem utf8Decode_lead {b : Nat} {need : Utf8Need} (h : utf8Lead b = .inr need)
    (bs : List Nat) : utf8Decode none (b :: bs) = utf8Decode (some need) bs := by
  rw [utf8Decode, h]

/-- A byte in the middle of a sequence. -/
theorem utf8Decode_more {need : Utf8Need} {b : Nat} (hb : need.lower ≤ b ∧ b ≤ need.upper)
    (hm : need.more ≠ 1) (bs : List Nat) :
    utf8Decode (some need) (b :: bs)
      = utf8Decode (some ⟨need.more - 1, need.code * 64 + (b - 0x80), 0x80, 0xBF⟩) bs := by
  rw [utf8Decode, if_pos hb]
  dsimp only
  rw [if_neg hm]

/-- The last byte of a sequence. -/
theorem utf8Decode_last {need : Utf8Need} {b : Nat} (hb : need.lower ≤ b ∧ b ≤ need.upper)
    (hm : need.more = 1) {c : Char} (hc : need.code * 64 + (b - 0x80) = c.toNat)
    (bs : List Nat) :
    utf8Decode (some need) (b :: bs) = c :: utf8Decode none bs := by
  rw [utf8Decode, if_pos hb]
  dsimp only
  rw [if_pos hm, hc, Char.ofNat_toNat]

theorem utf8Decode_encode_cons (c : Char) (bs : List Nat) :
    utf8Decode none (utf8Encode c ++ bs) = c :: utf8Decode none bs := by
  have hc := toNat_scalar c
  rw [utf8Encode]
  split
  · next h₁ =>
      rw [List.singleton_append, utf8Decode, utf8Lead, if_pos h₁]
      dsimp only
      rw [Char.ofNat_toNat]
  · next h₁ =>
      split
      · next h₂ =>
          have hlead : utf8Lead (0xC0 + c.toNat / 64)
              = .inr ⟨1, c.toNat / 64, 0x80, 0xBF⟩ := by
            rw [utf8Lead, if_neg (by omega), if_pos (by omega), Nat.add_sub_cancel_left]
          show utf8Decode none (_ :: _ :: bs) = _
          rw [utf8Decode_lead hlead]
          exact utf8Decode_last (by dsimp only; omega) rfl (by dsimp only; omega) bs
      · next h₂ =>
          split
          · next h₃ =>
              have hlead : utf8Lead (0xE0 + c.toNat / 4096) = .inr ⟨2, c.toNat / 4096,
                  if 0xE0 + c.toNat / 4096 = 0xE0 then 0xA0 else 0x80,
                  if 0xE0 + c.toNat / 4096 = 0xED then 0x9F else 0xBF⟩ := by
                rw [utf8Lead, if_neg (by omega), if_neg (by omega), if_pos (by omega),
                  Nat.add_sub_cancel_left]
              show utf8Decode none (_ :: _ :: _ :: bs) = _
              rw [utf8Decode_lead hlead]
              rw [utf8Decode_more (by dsimp only; split <;> split <;> omega) (by simp)]
              exact utf8Decode_last (by dsimp only; omega) rfl (by dsimp only; omega) bs
          · next h₃ =>
              have hlead : utf8Lead (0xF0 + c.toNat / 262144) = .inr ⟨3, c.toNat / 262144,
                  if 0xF0 + c.toNat / 262144 = 0xF0 then 0x90 else 0x80,
                  if 0xF0 + c.toNat / 262144 = 0xF4 then 0x8F else 0xBF⟩ := by
                rw [utf8Lead, if_neg (by omega), if_neg (by omega), if_neg (by omega),
                  if_pos (by omega), Nat.add_sub_cancel_left]
              show utf8Decode none (_ :: _ :: _ :: _ :: bs) = _
              rw [utf8Decode_lead hlead]
              rw [utf8Decode_more (by dsimp only; split <;> split <;> omega) (by simp)]
              rw [utf8Decode_more (by dsimp only; omega) (by simp)]
              exact utf8Decode_last (by dsimp only; omega) rfl (by dsimp only; omega) bs

theorem utf8Decode_encode (l : List Char) :
    utf8Decode none (l.flatMap utf8Encode) = l := by
  induction l with
  | nil => rfl
  | cons c l ih => rw [List.flatMap_cons, utf8Decode_encode_cons, ih]

end InvestApi.Codec
