import InvestApi.Codec.Number

/-!
# Messages

The JSON values a message is made of: strings, whole numbers, and objects of
them. Their text is read back as what was written, whatever follows it that
ends a number.
-/

namespace InvestApi.Codec

inductive Plain where
  | string (s : String)
  | whole (n : Int)
  | object (props : List (String × Plain))

def wholeText (n : Int) : List Char :=
  if n < 0 then '-' :: Nat.toDigits 10 n.natAbs else Nat.toDigits 10 n.natAbs

mutual

/-- `JSON.stringify`. -/
def Plain.text : Plain → List Char
  | .string s => quote (.ofString s)
  | .whole n => wholeText n
  | .object props => '{' :: propsText props

def propsText : List (String × Plain) → List Char
  | [] => ['}']
  | [(k, v)] => quote (.ofString k) ++ ':' :: (v.text ++ ['}'])
  | (k, v) :: props => quote (.ofString k) ++ ':' :: (v.text ++ ',' :: propsText props)

end

mutual

def Plain.json : Plain → Json
  | .string s => .string (.ofString s)
  | .whole n => .number n
  | .object props => .object (propsJson props)

def propsJson : List (String × Plain) → List (JsString × Json)
  | [] => []
  | (k, v) :: props => (.ofString k, v.json) :: propsJson props

end

/-! ## Numbers -/

/-- What may follow a number in a message. -/
def Stops : List Char → Prop
  | [] => True
  | c :: _ => c = ',' ∨ c = '}'

theorem Stops.ends {rest : List Char} (h : Stops rest) : Ends rest := by
  match rest, h with
  | [], _ => trivial
  | _ :: _, .inl hc => exact Or.inl hc
  | _ :: _, .inr hc => exact Or.inr (Or.inl hc)

theorem unsigned_toDigits (sign : Int) (n : Nat) {rest : List Char} (h : Stops rest) :
    unsigned sign (Nat.toDigits 10 n ++ rest) = some (((sign * n : Int) : Rat), rest) := by
  rw [unsigned_plain sign n h.ends, shifted]
  simp

theorem readNumber_wholeText (n : Int) {rest : List Char} (h : Stops rest) :
    readNumber (wholeText n ++ rest) = some ((n : Rat), rest) := by
  rw [wholeText]
  split
  · next hneg =>
      rw [List.cons_append, readNumber, unsigned_toDigits _ _ h]
      congr 2
      congr 1
      omega
  · next hpos =>
      have hsign : ∀ cs, Nat.toDigits 10 n.natAbs ++ rest ≠ '-' :: cs := by
        intro cs heq
        cases hd : Nat.toDigits 10 n.natAbs with
        | nil => exact Nat.toDigits_ne_nil hd
        | cons d ds =>
            have hdigit := isDigit_toDigits n.natAbs d (by simp [hd])
            rw [hd, List.cons_append] at heq
            injection heq with heq _
            subst heq
            exact absurd hdigit (by decide)
      rw [readNumber.eq_def]
      split
      · next cs heq => exact absurd heq (hsign cs)
      · rw [unsigned_toDigits _ _ h]
        congr 2
        congr 1
        omega

/-- A number's text begins with a digit or with its sign. -/
theorem readNumber_head {cs rest : List Char} {x : Rat} (h : readNumber cs = some (x, rest)) :
    ∃ c cs', cs = c :: cs' ∧ (isDigit c = true ∨ c = '-') := by
  cases cs with
  | nil => simp [readNumber, unsigned, intPart, digits1] at h
  | cons c cs =>
      refine ⟨c, cs, rfl, ?_⟩
      by_cases hc : c = '-'
      · exact Or.inr hc
      left
      by_contra hdigit
      have hzero : c ≠ '0' := by
        rintro rfl
        exact hdigit (by decide)
      have hint : intPart (c :: cs) = none := by
        rw [intPart.eq_def]
        split
        · next heq =>
            injection heq with heq _
            exact absurd heq hzero
        · rw [digits1, if_neg hdigit]
      rw [readNumber.eq_def] at h
      split at h
      · next heq =>
          injection heq with heq _
          exact hc heq
      · rw [unsigned, hint] at h
        simp at h

/-! ## Values -/

mutual

/-- The budget the reader needs. -/
def Plain.budget : Plain → Nat
  | .string _ => 1
  | .whole _ => 1
  | .object props => 1 + propsBudget props

def propsBudget : List (String × Plain) → Nat
  | [] => 0
  | (_, v) :: props => 1 + max v.budget (propsBudget props)

end

theorem numberHead_ne {c d : Char} (hc : isDigit c = true ∨ c = '-')
    (hd : isDigit d = false) (hd' : d ≠ '-') : c ≠ d := by
  rintro rfl
  rcases hc with hc | hc
  · rw [hc] at hd
    simp at hd
  · exact hd' hc

theorem value_number {n : Nat} (hn : 0 < n) {text rest : List Char} {x : Rat}
    (hread : readNumber text = some (x, rest)) :
    value n text = some (.number x, rest) := by
  obtain ⟨n, rfl⟩ : ∃ k, n = k + 1 := ⟨n - 1, by omega⟩
  obtain ⟨c, cs, rfl, hc⟩ := readNumber_head hread
  have hne : ∀ {d : Char}, isDigit d = false → d ≠ '-' → c ≠ d := numberHead_ne hc
  have hskip : skipSpace (c :: cs) = c :: cs := by
    have hspace : isSpace c = false := by
      simp only [isSpace, Bool.or_eq_false_iff, decide_eq_false_iff_not]
      exact ⟨⟨⟨hne (by decide) (by decide), hne (by decide) (by decide)⟩,
        hne (by decide) (by decide)⟩, hne (by decide) (by decide)⟩
    simp [skipSpace, hspace]
  -- The head of a number is the head of no other value.
  have hlead : ∀ {d : Char} {ds : List Char}, isDigit d = false → d ≠ '-' →
      c :: cs ≠ d :: ds := by
    intro d ds hd hd' heq
    injection heq with heq _
    exact hne hd hd' heq
  rw [value, hskip]
  split
  · next heq => exact absurd heq (hlead (by decide) (by decide))
  · next heq => exact absurd heq (hlead (by decide) (by decide))
  · next heq => exact absurd heq (hlead (by decide) (by decide))
  · next heq => exact absurd heq (hlead (by decide) (by decide))
  · next heq => exact absurd heq (hlead (by decide) (by decide))
  · next heq => exact absurd heq (hlead (by decide) (by decide))
  · show (readNumber (c :: cs)).bind _ = _
    rw [hread]
    rfl

theorem value_emptyObject {n : Nat} (hn : 0 < n) (rest : List Char) :
    value n ('{' :: '}' :: rest) = some (.object [], rest) := by
  obtain ⟨n, rfl⟩ : ∃ k, n = k + 1 := ⟨n - 1, by omega⟩
  rfl

/-- An object that has properties begins with the quote of a name. -/
theorem propsText_head (k : String) (v : Plain) (props : List (String × Plain)) :
    ∃ cs, propsText ((k, v) :: props) = '"' :: cs := by
  cases props with
  | nil => exact ⟨_, quote_append (.ofString k) _⟩
  | cons q props => exact ⟨_, quote_append (.ofString k) _⟩

theorem value_object {n : Nat} {cs rest : List Char} {props : List (JsString × Json)}
    (h : members n ('"' :: cs) = some (props, rest)) :
    value (n + 1) ('{' :: '"' :: cs) = some (.object props, rest) := by
  rw [value]
  show (members n ('"' :: cs)).bind _ = _
  rw [h]
  rfl

theorem members_last {n : Nat} {k : JsString} {v : Json} {text rest : List Char}
    (h : value n (text ++ '}' :: rest) = some (v, '}' :: rest)) :
    members (n + 1) (quote k ++ ':' :: (text ++ '}' :: rest)) = some ([(k, v)], rest) := by
  rw [quote_append, members]
  show (readString _).bind _ = _
  rw [readString_quoted]
  show (value n (text ++ '}' :: rest)).bind _ = _
  rw [h]
  rfl

theorem members_more {n : Nat} {k : JsString} {v : Json} {text more rest : List Char}
    {props : List (JsString × Json)}
    (h : value n (text ++ ',' :: more) = some (v, ',' :: more))
    (hmore : members n more = some (props, rest)) :
    members (n + 1) (quote k ++ ':' :: (text ++ ',' :: more))
      = some ((k, v) :: props, rest) := by
  rw [quote_append, members]
  show (readString _).bind _ = _
  rw [readString_quoted]
  show (value n (text ++ ',' :: more)).bind _ = _
  rw [h]
  show (members n more).bind _ = _
  rw [hmore]
  rfl

mutual

theorem value_text : ∀ (p : Plain) {n : Nat}, p.budget ≤ n → ∀ {rest : List Char},
    Stops rest → value n (p.text ++ rest) = some (p.json, rest)
  | .string s, n + 1, _, rest, _ => value_quote n (.ofString s) rest
  | .whole x, n, hn, rest, h =>
      value_number (by rw [Plain.budget] at hn; omega) (readNumber_wholeText x h)
  | .object [], n, hn, rest, _ => value_emptyObject (by rw [Plain.budget] at hn; omega) rest
  | .object ((k, v) :: props), 0, hn, rest, h => by
      rw [Plain.budget] at hn
      omega
  | .object ((k, v) :: props), n + 1, hn, rest, h => by
      have hbudget : propsBudget ((k, v) :: props) ≤ n := by
        rw [Plain.budget] at hn
        omega
      have hread := members_text k v props hbudget rest
      obtain ⟨cs, hcs⟩ := propsText_head k v props
      rw [hcs, List.cons_append] at hread
      rw [Plain.text, hcs]
      exact value_object hread

theorem members_text : ∀ (k : String) (v : Plain) (props : List (String × Plain)) {n : Nat},
    propsBudget ((k, v) :: props) ≤ n → ∀ rest : List Char,
      members n (propsText ((k, v) :: props) ++ rest)
        = some (propsJson ((k, v) :: props), rest)
  | k, v, props, 0, hn, rest => by
      rw [propsBudget] at hn
      omega
  | k, v, [], n + 1, hn, rest => by
      have hbudget : v.budget ≤ n := by
        rw [propsBudget] at hn
        omega
      rw [propsText, List.append_assoc, List.cons_append, List.append_assoc]
      exact members_last (value_text v hbudget (Or.inr rfl))
  | k, v, (k', v') :: props, n + 1, hn, rest => by
      have hbudget : v.budget ≤ n ∧ propsBudget ((k', v') :: props) ≤ n := by
        rw [propsBudget] at hn
        omega
      rw [propsText.eq_def]
      dsimp only
      rw [List.append_assoc, List.cons_append, List.append_assoc]
      exact members_more (value_text v hbudget.1 (Or.inl rfl))
        (members_text k' v' props hbudget.2 rest)

end

mutual

theorem budget_le_text : ∀ p : Plain, p.budget ≤ p.text.length
  | .string s => by
      rw [Plain.budget, Plain.text, quote, List.length_cons]
      omega
  | .whole x => by
      obtain ⟨c, cs, hcs, _⟩ := readNumber_head (@readNumber_wholeText x [] trivial)
      rw [List.append_nil] at hcs
      rw [Plain.budget, Plain.text, hcs, List.length_cons]
      omega
  | .object props => by
      have hprops := propsBudget_le_text props
      rw [Plain.budget, Plain.text, List.length_cons]
      omega

theorem propsBudget_le_text : ∀ props : List (String × Plain),
    propsBudget props ≤ (propsText props).length
  | [] => by simp [propsBudget]
  | [(k, v)] => by
      have hv := budget_le_text v
      simp only [propsBudget, propsText, List.length_append, List.length_cons]
      omega
  | (k, v) :: q :: props => by
      have hv := budget_le_text v
      have hprops := propsBudget_le_text (q :: props)
      rw [propsBudget, propsText.eq_def]
      simp only [List.length_append, List.length_cons]
      omega

end

/-- What `stringify` wrote of a message, `parse` reads back. -/
theorem parse_text (p : Plain) : parse p.text = some p.json := by
  have hbudget := budget_le_text p
  have hread : value (p.text.length + 1) (p.text ++ []) = some (p.json, []) :=
    value_text p (by omega) trivial
  rw [List.append_nil] at hread
  rw [parse, hread]
  rfl

end InvestApi.Codec
