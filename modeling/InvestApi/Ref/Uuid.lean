import Mathlib.Algebra.Order.Ring.Nat
import Mathlib.Order.Fin.Basic
import Mathlib.Tactic.IntervalCases
import Mathlib.Tactic.NormNum
import InvestApi.Codec.Text

/-!
# uuid values and their text

A `uuid` column holds 128 bits and compares them as one unsigned number.
Postgres writes a value as lower-case hex in groups of 8-4-4-4-12, and that
is the text JavaScript sees. Reading is more liberal: either case, an
optional hyphen after any group of four digits, optional braces. The one
fact the rest needs is that reading a written value gives it back.
-/

namespace InvestApi.Ref

open InvestApi.Codec

abbrev Uuid := Fin (2 ^ 128)

/-! Numerals of a uuid, and of the callers of a small system. -/

instance neZero_uuids : NeZero (2 ^ 128) := ⟨by decide⟩

instance neZero_two : NeZero 2 := ⟨by decide⟩

instance neZero_three : NeZero 3 := ⟨by decide⟩

instance neZero_four : NeZero 4 := ⟨by decide⟩

instance lawfulBEq_uuid : LawfulBEq Uuid := inferInstance

def hexDigits : Nat → Nat → List Nat
  | 0, _ => []
  | k + 1, n => hexDigits k (n / 16) ++ [n % 16]

/-- The digits of `n` bytes, a hyphen after the 4th, 6th, 8th and 10th of
the sixteen. -/
def uuidOut : Nat → List Nat → List Char
  | n + 1, d₁ :: d₂ :: ds =>
      Nat.digitChar d₁ :: Nat.digitChar d₂ ::
        (if n = 12 ∨ n = 10 ∨ n = 8 ∨ n = 6 then '-' :: uuidOut n ds
        else uuidOut n ds)
  | _, _ => []

def Uuid.chars (u : Uuid) : List Char := uuidOut 16 (hexDigits 32 u.val)

def Uuid.text (u : Uuid) : String := String.ofList u.chars

/-- The hyphen `uuid_in` passes over after a byte, `n` bytes to go. -/
def skipHyphen (n : Nat) : List Char → List Char
  | '-' :: cs => if n % 2 = 0 ∧ n ≠ 0 then cs else '-' :: cs
  | cs => cs

/-- `n` more bytes, two hex digits each. -/
def uuidBytes : Nat → Nat → List Char → Option (Nat × List Char)
  | 0, acc, cs => some (acc, cs)
  | n + 1, acc, c₁ :: c₂ :: cs =>
      match hexValue c₁, hexValue c₂ with
      | some h₁, some h₂ =>
          uuidBytes n (acc * 256 + h₁ * 16 + h₂) (skipHyphen n cs)
      | _, _ => none
  | _, _, _ => none

def uuidOfBytes : Option (Nat × List Char) → List Char → Option Uuid
  | some (n, rest), want =>
      if rest = want then some (Fin.ofNat (2 ^ 128) n) else none
  | none, _ => none

/-- Postgres' `uuid_in`. -/
def pgUuidIn (s : String) : Option Uuid :=
  match s.toList with
  | '{' :: cs => uuidOfBytes (uuidBytes 16 0 cs) ['}']
  | cs => uuidOfBytes (uuidBytes 16 0 cs) []

/-! ## Reading back what was written -/

theorem hexDigits_length (k n : Nat) : (hexDigits k n).length = k := by
  induction k generalizing n with
  | zero => rfl
  | succ k ih => rw [hexDigits, List.length_append, ih]; rfl

theorem hexDigits_lt {k n d : Nat} (h : d ∈ hexDigits k n) : d < 16 := by
  induction k generalizing n with
  | zero => simp [hexDigits] at h
  | succ k ih =>
      rw [hexDigits, List.mem_append, List.mem_singleton] at h
      rcases h with h | h
      · exact ih h
      · omega

theorem foldl_hexDigits (k n : Nat) (h : n < 16 ^ k) :
    (hexDigits k n).foldl (fun a d => a * 16 + d) 0 = n := by
  induction k generalizing n with
  | zero => simp only [pow_zero] at h; rw [hexDigits, List.foldl_nil]; omega
  | succ k ih =>
      have hq : n / 16 < 16 ^ k := by
        rw [pow_succ] at h
        omega
      rw [hexDigits, List.foldl_append, ih _ hq, List.foldl_cons, List.foldl_nil]
      omega

theorem digitChar_ne_hyphen {d : Nat} (h : d < 16) :
    Nat.digitChar d ≠ '-' := by
  interval_cases d <;> decide

theorem skipHyphen_uuidOut {n : Nat} {ds : List Nat}
    (hd : ∀ d ∈ ds, d < 16) : skipHyphen n (uuidOut n ds) = uuidOut n ds := by
  match n, ds with
  | 0, _ => simp [uuidOut, skipHyphen]
  | n + 1, [] => simp [uuidOut, skipHyphen]
  | n + 1, [_] => simp [uuidOut, skipHyphen]
  | n + 1, d₁ :: d₂ :: ds =>
      have hne := digitChar_ne_hyphen (hd d₁ (by simp))
      rw [uuidOut]
      unfold skipHyphen
      split
      · next heq =>
          injection heq with hc _
          exact absurd hc hne
      · rfl

theorem uuidBytes_uuidOut {n : Nat} :
    ∀ {ds : List Nat} {acc : Nat}, ds.length = 2 * n → (∀ d ∈ ds, d < 16) →
      uuidBytes n acc (uuidOut n ds)
        = some (ds.foldl (fun a d => a * 16 + d) acc, []) := by
  induction n with
  | zero =>
      intro ds acc hlen _
      obtain rfl : ds = [] := List.length_eq_zero_iff.mp (by omega)
      rfl
  | succ n ih =>
      intro ds acc hlen hd
      match ds, hlen with
      | d₁ :: d₂ :: ds, hlen =>
          have hlen' : ds.length = 2 * n := by
            simp only [List.length_cons] at hlen; omega
          have hd' : ∀ d ∈ ds, d < 16 := fun d h => hd d (by simp [h])
          have hacc : acc * 256 + d₁ * 16 + d₂ = (acc * 16 + d₁) * 16 + d₂ := by
            omega
          -- A hyphen that was written is one `uuid_in` passes over.
          have hskip : skipHyphen n
              (if n = 12 ∨ n = 10 ∨ n = 8 ∨ n = 6 then '-' :: uuidOut n ds
              else uuidOut n ds) = uuidOut n ds := by
            split
            · next hn =>
                have heven : n % 2 = 0 ∧ n ≠ 0 := by omega
                simp [skipHyphen, heven]
            · exact skipHyphen_uuidOut hd'
          rw [uuidOut, uuidBytes, hexValue_digitChar (hd d₁ (by simp)),
            hexValue_digitChar (hd d₂ (by simp))]
          simp only []
          rw [hskip, ih hlen' hd', hacc]
          rfl

theorem Uuid.chars_head (u : Uuid) : ∃ d cs, d < 16 ∧
    u.chars = Nat.digitChar d :: cs := by
  have hlen := hexDigits_length 32 u.val
  match hds : hexDigits 32 u.val, hlen with
  | d₁ :: d₂ :: ds, _ =>
      have hmem : d₁ ∈ hexDigits 32 u.val := by rw [hds]; simp
      exact ⟨d₁, (uuidOut 16 (d₁ :: d₂ :: ds)).tail, hexDigits_lt hmem, by
        rw [Uuid.chars, hds]; rfl⟩

theorem digitChar_ne_brace {d : Nat} (h : d < 16) :
    Nat.digitChar d ≠ '\x7b' := by
  interval_cases d <;> decide

theorem uuidOfBytes_val (u : Uuid) :
    uuidOfBytes (some (u.val, [])) [] = some u := by
  rw [uuidOfBytes, if_pos rfl, Fin.ofNat_val_eq_self]

/-- Postgres reads the text of a uuid as that uuid. -/
@[simp] theorem pgUuidIn_text (u : Uuid) : pgUuidIn u.text = some u := by
  have hbytes : uuidBytes 16 0 u.chars = some (u.val, []) := by
    rw [Uuid.chars, uuidBytes_uuidOut (hexDigits_length 32 u.val)
      (fun d hd => hexDigits_lt hd), foldl_hexDigits 32 u.val (by
        have := u.isLt
        have h : (16 : Nat) ^ 32 = 2 ^ 128 := by norm_num
        omega)]
  obtain ⟨d, cs, hd, hcs⟩ := u.chars_head
  have hread : uuidOfBytes (uuidBytes 16 0 u.chars) [] = some u := by
    rw [hbytes]
    exact uuidOfBytes_val u
  unfold pgUuidIn
  rw [Uuid.text, String.toList_ofList]
  split
  · next heq =>
      rw [hcs] at heq
      exact absurd (List.head_eq_of_cons_eq heq) (digitChar_ne_brace hd)
  · exact hread

theorem Uuid.text_injective {u u' : Uuid} (h : u.text = u'.text) : u = u' := by
  have h1 := pgUuidIn_text u
  rw [h, pgUuidIn_text] at h1
  exact (Option.some.inj h1).symm

theorem digitChar_ne_colon {d : Nat} (h : d < 16) : Nat.digitChar d ≠ ':' := by
  interval_cases d <;> decide

theorem colon_notMem_uuidOut : ∀ {n : Nat} {ds : List Nat}, (∀ d ∈ ds, d < 16) →
    ':' ∉ uuidOut n ds
  | 0, _, _ => by simp [uuidOut]
  | n + 1, [], _ => by simp [uuidOut]
  | n + 1, [_], _ => by simp [uuidOut]
  | n + 1, d₁ :: d₂ :: ds, h => by
      have hrest : ':' ∉ uuidOut n ds :=
        colon_notMem_uuidOut fun d hd => h d (by simp [hd])
      have h₁ := digitChar_ne_colon (h d₁ (by simp))
      have h₂ := digitChar_ne_colon (h d₂ (by simp))
      rw [uuidOut]
      simp only [List.mem_cons, not_or]
      refine ⟨Ne.symm h₁, Ne.symm h₂, ?_⟩
      split
      · rw [List.mem_cons, not_or]
        exact ⟨by decide, hrest⟩
      · exact hrest

theorem Uuid.colon_notMem_chars (u : Uuid) : ':' ∉ u.chars :=
  colon_notMem_uuidOut fun _ hd => hexDigits_lt hd

end InvestApi.Ref
