import InvestApi.Codec.Plain

/-!
# `JSON.stringify`

Any value is read back from its text, so two values of one text are one value.
The induction is on the value, and what it carries is that the text may be
followed by whatever ends a number: the reader stops where the writer did.
-/

namespace InvestApi.Codec

mutual

def Json.text : Json → List Char
  | .null => ['n', 'u', 'l', 'l']
  | .bool true => ['t', 'r', 'u', 'e']
  | .bool false => ['f', 'a', 'l', 's', 'e']
  | .number x => numberText x
  | .string s => quote s
  | .array items => '[' :: itemsText items
  | .object props => '{' :: propertiesText props

def itemsText : List Json → List Char
  | [] => [']']
  | [v] => v.text ++ [']']
  | v :: items => v.text ++ ',' :: itemsText items

def propertiesText : List (JsString × Json) → List Char
  | [] => ['}']
  | [(k, v)] => quote k ++ ':' :: (v.text ++ ['}'])
  | (k, v) :: props => quote k ++ ':' :: (v.text ++ ',' :: propertiesText props)

end

mutual

/-- Every number has finitely many decimals. -/
def Json.decimal : Json → Bool
  | .null => true
  | .bool _ => true
  | .number x => IsDecimal x
  | .string _ => true
  | .array items => decimalItems items
  | .object props => decimalProperties props

def decimalItems : List Json → Bool
  | [] => true
  | v :: items => v.decimal && decimalItems items

def decimalProperties : List (JsString × Json) → Bool
  | [] => true
  | (_, v) :: props => v.decimal && decimalProperties props

end

mutual

def Json.budget : Json → Nat
  | .array items => 1 + itemsBudget items
  | .object props => 1 + propertiesBudget props
  | _ => 1

def itemsBudget : List Json → Nat
  | [] => 0
  | v :: items => 1 + max v.budget (itemsBudget items)

def propertiesBudget : List (JsString × Json) → Nat
  | [] => 0
  | (_, v) :: props => 1 + max v.budget (propertiesBudget props)

end

/-! ## The first character -/

/-- No value begins with a space or with the end of an array. -/
def Begins (cs : List Char) : Prop :=
  ∃ c cs', cs = c :: cs' ∧ isSpace c = false ∧ c ≠ ']'

theorem numberText_begins {x : Rat} (hx : IsDecimal x = true) : Begins (numberText x) := by
  have hread := @readNumber_numberText x hx [] trivial
  rw [List.append_nil] at hread
  obtain ⟨c, cs, hcs, hc⟩ := readNumber_head hread
  have hne : ∀ {d : Char}, isDigit d = false → d ≠ '-' → c ≠ d := numberHead_ne hc
  refine ⟨c, cs, hcs, ?_, hne (by decide) (by decide)⟩
  simp only [isSpace, Bool.or_eq_false_iff, decide_eq_false_iff_not]
  exact ⟨⟨⟨hne (by decide) (by decide), hne (by decide) (by decide)⟩,
    hne (by decide) (by decide)⟩, hne (by decide) (by decide)⟩

theorem text_begins {j : Json} (hj : j.decimal = true) : Begins j.text := by
  cases j with
  | null => exact ⟨'n', _, by rw [Json.text], rfl, by decide⟩
  | bool b =>
      cases b with
      | true => exact ⟨'t', _, by rw [Json.text], rfl, by decide⟩
      | false => exact ⟨'f', _, by rw [Json.text], rfl, by decide⟩
  | number x =>
      rw [Json.text]
      exact numberText_begins (by rwa [Json.decimal] at hj)
  | string s => exact ⟨'"', _, by rw [Json.text, quote], rfl, by decide⟩
  | array items => exact ⟨'[', _, by rw [Json.text], rfl, by decide⟩
  | object props => exact ⟨'{', _, by rw [Json.text], rfl, by decide⟩

theorem propertiesText_head (k : JsString) (v : Json) (props : List (JsString × Json)) :
    ∃ cs, propertiesText ((k, v) :: props) = '"' :: cs := by
  cases props with
  | nil => exact ⟨_, quote_append k _⟩
  | cons q props => exact ⟨_, quote_append k _⟩

theorem itemsText_begins {v : Json} {items : List Json} (hv : v.decimal = true) :
    Begins (itemsText (v :: items)) := by
  obtain ⟨c, cs, hcs, hspace, hc⟩ := text_begins hv
  cases items with
  | nil =>
      rw [itemsText.eq_def]
      dsimp only
      rw [hcs]
      exact ⟨c, _, rfl, hspace, hc⟩
  | cons w items =>
      rw [itemsText.eq_def]
      dsimp only
      rw [hcs]
      exact ⟨c, _, rfl, hspace, hc⟩

/-! ## Reading items -/

theorem elements_last {n : Nat} {v : Json} {text rest : List Char}
    (h : value n (text ++ ']' :: rest) = some (v, ']' :: rest)) :
    elements (n + 1) (text ++ ']' :: rest) = some ([v], rest) := by
  rw [elements]
  show (value n (text ++ ']' :: rest)).bind _ = _
  rw [h]
  rfl

theorem elements_more {n : Nat} {v : Json} {text more rest : List Char} {items : List Json}
    (h : value n (text ++ ',' :: more) = some (v, ',' :: more))
    (hmore : elements n more = some (items, rest)) :
    elements (n + 1) (text ++ ',' :: more) = some (v :: items, rest) := by
  rw [elements]
  show (value n (text ++ ',' :: more)).bind _ = _
  rw [h]
  show (elements n more).bind _ = _
  rw [hmore]
  rfl

theorem value_array {n : Nat} {cs rest : List Char} {items : List Json} (hcs : Begins cs)
    (h : elements n cs = some (items, rest)) :
    value (n + 1) ('[' :: cs) = some (.array items, rest) := by
  obtain ⟨c, cs, rfl, hspace, hc⟩ := hcs
  have hskip : skipSpace (c :: cs) = c :: cs := by simp [skipSpace, hspace]
  have hbracket : skipSpace ('[' :: c :: cs) = '[' :: c :: cs := rfl
  rw [value]
  simp only [hbracket, hskip]
  split
  · next heq =>
      injection heq with heq _
      exact absurd heq hc
  · rw [h]
    rfl

/-! ## Values -/

mutual

theorem value_jsonText : ∀ (j : Json) {n : Nat}, j.decimal = true → j.budget ≤ n →
    ∀ {rest : List Char}, Ends rest → value n (j.text ++ rest) = some (j, rest)
  | .null, n + 1, _, _, rest, _ => by
      rw [Json.text]
      rfl
  | .bool true, n + 1, _, _, rest, _ => by
      rw [Json.text]
      rfl
  | .bool false, n + 1, _, _, rest, _ => by
      rw [Json.text]
      rfl
  | .number x, n, hj, hn, rest, h => by
      rw [Json.budget.eq_def] at hn
      rw [Json.decimal] at hj
      rw [Json.text]
      exact value_number hn (readNumber_numberText hj h)
  | .string s, n + 1, _, _, rest, _ => by
      rw [Json.text]
      exact value_quote n s rest
  | .array [], n + 1, _, _, rest, _ => by
      rw [Json.text, itemsText]
      rfl
  | .array (v :: items), n + 1, hj, hn, rest, h => by
      rw [Json.decimal, decimalItems, Bool.and_eq_true] at hj
      rw [Json.budget.eq_def] at hn
      dsimp only at hn
      have hbudget : itemsBudget (v :: items) ≤ n := by omega
      obtain ⟨c, cs, hcs, hbegins⟩ := @itemsText_begins v items hj.1
      have hread := elements_itemsText v items hj.1 hj.2 hbudget rest
      rw [hcs, List.cons_append] at hread
      rw [Json.text, hcs]
      exact value_array ⟨c, cs ++ rest, rfl, hbegins⟩ hread
  | .object [], n + 1, _, _, rest, _ => by
      rw [Json.text, propertiesText]
      rfl
  | .object ((k, v) :: props), n + 1, hj, hn, rest, h => by
      rw [Json.decimal, decimalProperties, Bool.and_eq_true] at hj
      rw [Json.budget.eq_def] at hn
      dsimp only at hn
      have hbudget : propertiesBudget ((k, v) :: props) ≤ n := by omega
      obtain ⟨cs, hcs⟩ := propertiesText_head k v props
      have hread := members_propertiesText k v props hj.1 hj.2 hbudget rest
      rw [hcs, List.cons_append] at hread
      rw [Json.text, hcs]
      exact value_object hread
  | .null, 0, _, hn, _, _ => by simp [Json.budget] at hn
  | .bool _, 0, _, hn, _, _ => by simp [Json.budget] at hn
  | .string _, 0, _, hn, _, _ => by simp [Json.budget] at hn
  | .array _, 0, _, hn, _, _ => by simp [Json.budget] at hn
  | .object _, 0, _, hn, _, _ => by simp [Json.budget] at hn

theorem elements_itemsText : ∀ (v : Json) (items : List Json) {n : Nat},
    v.decimal = true → decimalItems items = true → itemsBudget (v :: items) ≤ n →
    ∀ rest : List Char,
      elements n (itemsText (v :: items) ++ rest) = some (v :: items, rest)
  | v, items, 0, _, _, hn, rest => by
      rw [itemsBudget] at hn
      omega
  | v, [], n + 1, hv, _, hn, rest => by
      have hbudget : v.budget ≤ n := by
        rw [itemsBudget] at hn
        omega
      rw [itemsText, List.append_assoc]
      exact elements_last (value_jsonText v hv hbudget (Or.inr (Or.inr rfl)))
  | v, w :: items, n + 1, hv, hitems, hn, rest => by
      have hbudget : v.budget ≤ n ∧ itemsBudget (w :: items) ≤ n := by
        rw [itemsBudget] at hn
        omega
      rw [decimalItems, Bool.and_eq_true] at hitems
      rw [itemsText.eq_def]
      dsimp only
      rw [List.append_assoc, List.cons_append]
      exact elements_more (value_jsonText v hv hbudget.1 (Or.inl rfl))
        (elements_itemsText w items hitems.1 hitems.2 hbudget.2 rest)

theorem members_propertiesText : ∀ (k : JsString) (v : Json) (props : List (JsString × Json))
    {n : Nat}, v.decimal = true → decimalProperties props = true →
    propertiesBudget ((k, v) :: props) ≤ n → ∀ rest : List Char,
      members n (propertiesText ((k, v) :: props) ++ rest) = some ((k, v) :: props, rest)
  | k, v, props, 0, _, _, hn, rest => by
      rw [propertiesBudget] at hn
      omega
  | k, v, [], n + 1, hv, _, hn, rest => by
      have hbudget : v.budget ≤ n := by
        rw [propertiesBudget] at hn
        omega
      rw [propertiesText, List.append_assoc, List.cons_append, List.append_assoc]
      exact members_last (value_jsonText v hv hbudget (Or.inr (Or.inl rfl)))
  | k, v, (k', v') :: props, n + 1, hv, hprops, hn, rest => by
      have hbudget : v.budget ≤ n ∧ propertiesBudget ((k', v') :: props) ≤ n := by
        rw [propertiesBudget] at hn
        omega
      rw [decimalProperties, Bool.and_eq_true] at hprops
      rw [propertiesText.eq_def]
      dsimp only
      rw [List.append_assoc, List.cons_append, List.append_assoc]
      exact members_more (value_jsonText v hv hbudget.1 (Or.inl rfl))
        (members_propertiesText k' v' props hprops.1 hprops.2 hbudget.2 rest)

end

mutual

theorem budget_le_jsonText : ∀ j : Json, j.decimal = true → j.budget ≤ j.text.length
  | .null, _ => by simp [Json.budget, Json.text]
  | .bool true, _ => by simp [Json.budget, Json.text]
  | .bool false, _ => by simp [Json.budget, Json.text]
  | .number x, hj => by
      rw [Json.decimal] at hj
      obtain ⟨c, cs, hcs, -⟩ := numberText_begins hj
      simp [Json.budget, Json.text, hcs]
  | .string s, _ => by simp [Json.budget, Json.text, quote]
  | .array items, hj => by
      rw [Json.decimal] at hj
      have hitems := itemsBudget_le_text items hj
      rw [Json.budget.eq_def, Json.text, List.length_cons]
      dsimp only
      omega
  | .object props, hj => by
      rw [Json.decimal] at hj
      have hprops := propertiesBudget_le_text props hj
      rw [Json.budget.eq_def, Json.text, List.length_cons]
      dsimp only
      omega

theorem itemsBudget_le_text : ∀ items : List Json, decimalItems items = true →
    itemsBudget items ≤ (itemsText items).length
  | [], _ => by simp [itemsBudget]
  | [v], hitems => by
      rw [decimalItems, Bool.and_eq_true] at hitems
      have hv := budget_le_jsonText v hitems.1
      simp only [itemsBudget, itemsText, List.length_append, List.length_cons]
      omega
  | v :: w :: items, hitems => by
      rw [decimalItems, Bool.and_eq_true] at hitems
      have hv := budget_le_jsonText v hitems.1
      have hrest := itemsBudget_le_text (w :: items) hitems.2
      rw [itemsBudget, itemsText.eq_def]
      simp only [List.length_append, List.length_cons]
      omega

theorem propertiesBudget_le_text : ∀ props : List (JsString × Json),
    decimalProperties props = true → propertiesBudget props ≤ (propertiesText props).length
  | [], _ => by simp [propertiesBudget]
  | [(k, v)], hprops => by
      rw [decimalProperties, Bool.and_eq_true] at hprops
      have hv := budget_le_jsonText v hprops.1
      simp only [propertiesBudget, propertiesText, List.length_append, List.length_cons]
      omega
  | (k, v) :: q :: props, hprops => by
      rw [decimalProperties, Bool.and_eq_true] at hprops
      have hv := budget_le_jsonText v hprops.1
      have hrest := propertiesBudget_le_text (q :: props) hprops.2
      rw [propertiesBudget, propertiesText.eq_def]
      simp only [List.length_append, List.length_cons]
      omega

end

/-- What is written of a value is read back. -/
theorem parse_jsonText {j : Json} (hj : j.decimal = true) : parse j.text = some j := by
  have hbudget := budget_le_jsonText j hj
  have hread : value (j.text.length + 1) (j.text ++ []) = some (j, []) :=
    value_jsonText j hj (by omega) trivial
  rw [List.append_nil] at hread
  rw [parse, hread]
  rfl

/-- Values of one text are one value. -/
theorem jsonText_injective {j j' : Json} (hj : j.decimal = true) (hj' : j'.decimal = true)
    (h : j.text = j'.text) : j = j' := by
  have hread := parse_jsonText hj
  rw [h, parse_jsonText hj'] at hread
  exact (Option.some.inj hread).symm

end InvestApi.Codec
