import InvestApi.Codec.Text

/-!
# JSON texts

A reader for the whole grammar and a writer for strings and objects of them. A string
is its UTF-16 code units, of which an escape names one; a surrogate without its other
half is no character and is written as an escape. A number is the number its digits
say, not rounded to a double.

The reader recurses on a budget. Every call it makes has consumed a character,
so the length of the text is enough.
-/

namespace InvestApi.Codec

inductive Json where
  | null
  | bool (b : Bool)
  | number (x : Rat)
  | string (s : JsString)
  | array (items : List Json)
  | object (props : List (JsString × Json))

/-- Properties whose names are texts. -/
def named (props : List (String × Json)) : List (JsString × Json) :=
  props.map fun p => (.ofString p.1, p.2)

/-! ## Strings -/

def hex4 (a b c d : Char) : Option Nat := do
  let a ← hexValue a
  let b ← hexValue b
  let c ← hexValue c
  let d ← hexValue d
  some (a * 4096 + b * 256 + c * 16 + d)

/-- The unit a one-letter escape stands for. -/
def escaped (c : Char) : Option Nat :=
  if c = '"' ∨ c = '\\' ∨ c = '/' then some c.toNat
  else if c = 'b' then some 8
  else if c = 't' then some 9
  else if c = 'n' then some 10
  else if c = 'f' then some 12
  else if c = 'r' then some 13
  else none

def consUnits (us : List Nat) (rest : Option (List Nat × List Char)) :
    Option (List Nat × List Char) :=
  rest.map fun r => (us ++ r.1, r.2)

/-- What follows the opening quote, up to the closing one. -/
def stringBody : List Char → Option (List Nat × List Char)
  | [] => none
  | c :: cs =>
      if c = '"' then some ([], cs)
      else if c = '\\' then
        match cs with
        | 'u' :: a :: b :: d :: e :: rest =>
            (hex4 a b d e).bind fun u => consUnits [u] (stringBody rest)
        | e :: rest => (escaped e).bind fun u => consUnits [u] (stringBody rest)
        | [] => none
      else if c.toNat < 0x20 then none
      else consUnits (charUnits c) (stringBody cs)

def readString (cs : List Char) : Option (JsString × List Char) := do
  let (us, after) ← stringBody cs
  some (⟨us.map UInt16.ofNat⟩, after)

theorem lookup_named (name : String) (props : List (String × Json)) :
    (named props).reverse.lookup (.ofString name) = props.reverse.lookup name := by
  rw [named, ← List.map_reverse]
  induction props.reverse with
  | nil => rfl
  | cons p props ih =>
      rw [List.map_cons, List.lookup_cons, List.lookup_cons, ih]
      congr 1
      rw [Bool.eq_iff_iff, beq_iff_eq, beq_iff_eq, JsString.ofString_injective.eq_iff]

/-! ## Numbers -/

def isDigit (c : Char) : Bool := '0' ≤ c ∧ c ≤ '9'

/-- At least one digit: the digits and what follows them. -/
def digits1 : List Char → Option (List Char × List Char)
  | c :: cs =>
      if isDigit c then some (c :: cs.takeWhile isDigit, cs.dropWhile isDigit) else none
  | [] => none

def intPart : List Char → Option (List Char × List Char)
  | '0' :: cs => some (['0'], cs)
  | cs => digits1 cs

def fracPart : List Char → Option (List Char × List Char)
  | '.' :: cs => digits1 cs
  | cs => some ([], cs)

def digitsValue (ds : List Char) : Nat := Nat.ofDigitChars 10 ds 0

def expPart : List Char → Option (Int × List Char)
  | c :: cs =>
      if c = 'e' ∨ c = 'E' then
        match cs with
        | '+' :: cs => (digits1 cs).map fun r => ((digitsValue r.1 : Int), r.2)
        | '-' :: cs => (digits1 cs).map fun r => (-(digitsValue r.1 : Int), r.2)
        | cs => (digits1 cs).map fun r => ((digitsValue r.1 : Int), r.2)
      else some (0, c :: cs)
  | [] => some (0, [])

/-- `n · 10 ^ e`. -/
def scaled (n : Int) (e : Int) : Rat :=
  if 0 ≤ e then ((n * 10 ^ e.toNat : Int) : Rat) else mkRat n (10 ^ (-e).toNat)

/-- A number without its sign, which `sign` gives back. -/
def unsigned (sign : Int) (cs : List Char) : Option (Rat × List Char) := do
  let (int, cs) ← intPart cs
  let (frac, cs) ← fracPart cs
  let (e, cs) ← expPart cs
  some (scaled (sign * digitsValue (int ++ frac)) (e - frac.length), cs)

def readNumber : List Char → Option (Rat × List Char)
  | '-' :: cs => unsigned (-1) cs
  | cs => unsigned 1 cs

/-! ## Values -/

def isSpace (c : Char) : Bool := c = ' ' || c = '\t' || c = '\n' || c = '\r'

def skipSpace (cs : List Char) : List Char := cs.dropWhile isSpace

mutual

def value : Nat → List Char → Option (Json × List Char)
  | 0, _ => none
  | n + 1, cs =>
      match skipSpace cs with
      | '"' :: cs => do
          let (s, cs) ← readString cs
          some (.string s, cs)
      | '{' :: cs =>
          match skipSpace cs with
          | '}' :: cs => some (.object [], cs)
          | cs => do
              let (props, cs) ← members n cs
              some (.object props, cs)
      | '[' :: cs =>
          match skipSpace cs with
          | ']' :: cs => some (.array [], cs)
          | cs => do
              let (items, cs) ← elements n cs
              some (.array items, cs)
      | 't' :: 'r' :: 'u' :: 'e' :: cs => some (.bool true, cs)
      | 'f' :: 'a' :: 'l' :: 's' :: 'e' :: cs => some (.bool false, cs)
      | 'n' :: 'u' :: 'l' :: 'l' :: cs => some (.null, cs)
      | cs => do
          let (x, cs) ← readNumber cs
          some (.number x, cs)

/-- The properties of an object that has some, and its closing brace. -/
def members : Nat → List Char → Option (List (JsString × Json) × List Char)
  | 0, _ => none
  | n + 1, cs =>
      match skipSpace cs with
      | '"' :: cs => do
          let (name, cs) ← readString cs
          match skipSpace cs with
          | ':' :: cs => do
              let (v, cs) ← value n cs
              match skipSpace cs with
              | '}' :: cs => some ([(name, v)], cs)
              | ',' :: cs => do
                  let (props, cs) ← members n cs
                  some ((name, v) :: props, cs)
              | _ => none
          | _ => none
      | _ => none

def elements : Nat → List Char → Option (List Json × List Char)
  | 0, _ => none
  | n + 1, cs => do
      let (v, cs) ← value n cs
      match skipSpace cs with
      | ']' :: cs => some ([v], cs)
      | ',' :: cs => do
          let (items, cs) ← elements n cs
          some (v :: items, cs)
      | _ => none

end

/-- `JSON.parse`, `none` where it throws. -/
def parse (text : List Char) : Option Json := do
  let (v, cs) ← value (text.length + 1) text
  if skipSpace cs = [] then some v else none

/-! ## Writing -/

def quoteChar (c : Char) : List Char :=
  if c = '"' then ['\\', '"']
  else if c = '\\' then ['\\', '\\']
  else if c.toNat = 8 then ['\\', 'b']
  else if c.toNat = 9 then ['\\', 't']
  else if c.toNat = 10 then ['\\', 'n']
  else if c.toNat = 12 then ['\\', 'f']
  else if c.toNat = 13 then ['\\', 'r']
  else if c.toNat < 0x20 then
    ['\\', 'u', '0', '0', Nat.digitChar (c.toNat / 16), Nat.digitChar (c.toNat % 16)]
  else [c]

/-- A unit that is no half of a pair: a surrogate is written as an escape. -/
def quoteUnit (u : Nat) : List Char :=
  if 0xD800 ≤ u ∧ u ≤ 0xDFFF then
    ['\\', 'u', 'd', Nat.digitChar (u / 256 % 16), Nat.digitChar (u / 16 % 16),
      Nat.digitChar (u % 16)]
  else quoteChar (Char.ofNat u)

def quoteUnits : List Nat → List Char
  | hi :: lo :: us =>
      if (0xD800 ≤ hi ∧ hi ≤ 0xDBFF) ∧ 0xDC00 ≤ lo ∧ lo ≤ 0xDFFF then
        Char.ofNat (0x10000 + (hi - 0xD800) * 1024 + (lo - 0xDC00)) :: quoteUnits us
      else quoteUnit hi ++ quoteUnits (lo :: us)
  | [u] => quoteUnit u
  | [] => []

def quote (s : JsString) : List Char := '"' :: (quoteUnits s.codes ++ ['"'])

def membersText : List (String × String) → List Char
  | [] => ['}']
  | [(k, v)] => quote (.ofString k) ++ ':' :: (quote (.ofString v) ++ ['}'])
  | (k, v) :: props =>
      quote (.ofString k) ++ ':' :: (quote (.ofString v) ++ ',' :: membersText props)

/-- `JSON.stringify` of an object whose properties are strings. -/
def objectText (props : List (String × String)) : List Char := '{' :: membersText props

/-! ## What is written is read -/

theorem hex4_low {n : Nat} (h : n < 0x20) :
    hex4 '0' '0' (Nat.digitChar (n / 16)) (Nat.digitChar (n % 16)) = some n := by
  rw [hex4, hexValue_digitChar (by omega), hexValue_digitChar (by omega)]
  show some (0 * 4096 + 0 * 256 + n / 16 * 16 + n % 16) = some n
  congr 1
  omega

theorem stringBody_escape {c e : Char} (he : escaped e = some c.toNat)
    (hlow : c.toNat < 0x80) (hu : e ≠ 'u') (cs : List Char) :
    stringBody ('\\' :: e :: cs) = consUnits (charUnits c) (stringBody cs) := by
  rw [stringBody.eq_def, charUnits_low hlow]
  dsimp only
  rw [if_neg (by decide), if_pos rfl]
  split
  · next h =>
      injection h with h _
      exact absurd h hu
  · next h =>
      injection h with h₁ h₂
      subst h₁ h₂
      rw [he]
      rfl
  · next h => exact absurd h (by simp)

theorem stringBody_quoteChar (c : Char) (cs : List Char) :
    stringBody (quoteChar c ++ cs) = consUnits (charUnits c) (stringBody cs) := by
  unfold quoteChar
  split
  · next h => exact stringBody_escape (by subst h; rfl) (by subst h; decide) (by decide) cs
  split
  · next h => exact stringBody_escape (by subst h; rfl) (by subst h; decide) (by decide) cs
  split
  · next h => exact stringBody_escape (by rw [h]; rfl) (by omega) (by decide) cs
  split
  · next h => exact stringBody_escape (by rw [h]; rfl) (by omega) (by decide) cs
  split
  · next h => exact stringBody_escape (by rw [h]; rfl) (by omega) (by decide) cs
  split
  · next h => exact stringBody_escape (by rw [h]; rfl) (by omega) (by decide) cs
  split
  · next h => exact stringBody_escape (by rw [h]; rfl) (by omega) (by decide) cs
  split
  · next h =>
      show stringBody ('\\' :: 'u' :: '0' :: '0' :: _ :: _ :: cs) = _
      rw [stringBody.eq_def]
      dsimp only
      rw [if_neg (by decide), if_pos rfl]
      show (hex4 _ _ _ _).bind _ = _
      rw [hex4_low h, charUnits_low (by omega)]
      rfl
  · next hq hb _ _ _ _ _ hl =>
      rw [List.singleton_append, stringBody.eq_def]
      dsimp only
      rw [if_neg hq, if_neg hb, if_neg hl]

theorem hex4_surrogate {u : Nat} (h : 0xD800 ≤ u ∧ u ≤ 0xDFFF) :
    hex4 'd' (Nat.digitChar (u / 256 % 16)) (Nat.digitChar (u / 16 % 16))
      (Nat.digitChar (u % 16)) = some u := by
  rw [hex4, hexValue_digitChar (by omega), hexValue_digitChar (by omega),
    hexValue_digitChar (by omega)]
  show some (13 * 4096 + u / 256 % 16 * 256 + u / 16 % 16 * 16 + u % 16) = some u
  congr 1
  omega

theorem stringBody_quoteUnit {u : Nat} (h : u < 0x10000) (cs : List Char) :
    stringBody (quoteUnit u ++ cs) = consUnits [u] (stringBody cs) := by
  rw [quoteUnit]
  split
  · next hu =>
      show stringBody ('\\' :: 'u' :: 'd' :: _ :: _ :: _ :: cs) = _
      rw [stringBody.eq_def]
      dsimp only
      rw [if_neg (by decide), if_pos rfl]
      show (hex4 _ _ _ _).bind _ = _
      rw [hex4_surrogate hu]
      rfl
  · next hu =>
      have hunits := charUnits_unitChar h
      rw [unitChar, if_neg hu, if_neg hu] at hunits
      rw [stringBody_quoteChar, hunits]

/-- No character past U+FFFF is written as an escape. -/
theorem quoteChar_far {c : Char} (h : 0x10000 ≤ c.toNat) : quoteChar c = [c] := by
  have hne : ∀ {d : Char}, d.toNat < 0x10000 → c ≠ d := by
    rintro d hd rfl
    omega
  rw [quoteChar, if_neg (hne (by decide)), if_neg (hne (by decide)), if_neg (by omega),
    if_neg (by omega), if_neg (by omega), if_neg (by omega), if_neg (by omega),
    if_neg (by omega)]

theorem stringBody_quoteUnits {us : List Nat} (hlt : ∀ u ∈ us, u < 0x10000)
    (rest : List Char) : stringBody (quoteUnits us ++ '"' :: rest) = some (us, rest) := by
  induction us using quoteUnits.induct with
  | case1 hi lo us h ih =>
      obtain ⟨c, hc⟩ :
          ∃ c, c = Char.ofNat (0x10000 + (hi - 0xD800) * 1024 + (lo - 0xDC00)) := ⟨_, rfl⟩
      have hfar : 0x10000 ≤ c.toNat := by
        rw [hc, toNat_ofNat (by omega)]
        omega
      have hread := stringBody_quoteChar c (quoteUnits us ++ '"' :: rest)
      rw [quoteChar_far hfar, hc, charUnits_pair h.1 h.2, ih fun u hu => hlt u (by simp [hu])]
        at hread
      rw [quoteUnits, if_pos h]
      exact hread
  | case2 hi lo us h ih =>
      rw [quoteUnits, if_neg h, List.append_assoc, stringBody_quoteUnit (hlt hi (by simp)),
        ih fun u hu => hlt u (List.mem_cons_of_mem _ hu)]
      rfl
  | case3 u =>
      rw [quoteUnits, stringBody_quoteUnit (hlt u (by simp)), stringBody.eq_def]
      rfl
  | case4 => exact (stringBody.eq_def _).trans (if_pos rfl)

theorem readString_quoted (s : JsString) (rest : List Char) :
    readString (quoteUnits s.codes ++ '"' :: rest) = some (s, rest) := by
  rw [readString, stringBody_quoteUnits s.codes_lt]
  show some (JsString.mk (s.codes.map UInt16.ofNat), rest) = _
  rw [s.map_ofNat_codes]

theorem quote_append (s : JsString) (rest : List Char) :
    quote s ++ rest = '"' :: (quoteUnits s.codes ++ '"' :: rest) := by
  rw [quote, List.cons_append, List.append_assoc, List.singleton_append]

theorem value_quote (n : Nat) (s : JsString) (rest : List Char) :
    value (n + 1) (quote s ++ rest) = some (.string s, rest) := by
  rw [quote_append, value]
  show (readString _).bind _ = _
  rw [readString_quoted]
  rfl

theorem members_membersText : ∀ {props : List (String × String)} {n : Nat}, props ≠ [] →
    props.length < n → ∀ rest, members n (membersText props ++ rest)
      = some (props.map fun p => (.ofString p.1, .string (.ofString p.2)), rest)
  | [(k, v)], n + 2, _, _, rest => by
      show members (n + 2)
        ((quote (.ofString k) ++ ':' :: (quote (.ofString v) ++ ['}'])) ++ rest) = _
      rw [List.append_assoc, List.cons_append, List.append_assoc, quote_append, members]
      show (readString _).bind _ = _
      rw [readString_quoted]
      show (value (n + 1) (quote (.ofString v) ++ _)).bind _ = _
      rw [value_quote]
      rfl
  | (k, v) :: q :: props, n + 2, _, hn, rest => by
      have ih := @members_membersText (q :: props) (n + 1) (by simp)
        (by simp only [List.length_cons] at hn ⊢; omega) rest
      show members (n + 2) ((quote (.ofString k) ++ ':' ::
        (quote (.ofString v) ++ ',' :: membersText (q :: props))) ++ rest) = _
      rw [List.append_assoc, List.cons_append, List.append_assoc, quote_append, members]
      show (readString _).bind _ = _
      rw [readString_quoted]
      show (value (n + 1) (quote (.ofString v) ++ _)).bind _ = _
      rw [value_quote]
      show (members (n + 1) (membersText (q :: props) ++ rest)).bind _ = _
      rw [ih]
      rfl

theorem length_le_membersText : ∀ props : List (String × String),
    props.length ≤ (membersText props).length
  | [] => by simp
  | [(k, v)] => by
      simp only [membersText, List.length_append, List.length_cons]
      omega
  | (k, v) :: q :: props => by
      have ih := length_le_membersText (q :: props)
      simp only [membersText, List.length_append, List.length_cons] at ih ⊢
      omega

/-- What `stringify` wrote, `parse` reads back, property by property. -/
theorem parse_objectText (props : List (String × String)) :
    parse (objectText props)
      = some (.object (named (props.map fun p => (p.1, .string (.ofString p.2))))) := by
  match props with
  | [] => rfl
  | p :: props =>
      have hlen := length_le_membersText (p :: props)
      have hread := @members_membersText (p :: props)
        ((membersText (p :: props)).length + 1) (by simp) (by omega) []
      have hquote : ∃ cs, membersText (p :: props) = '"' :: cs := by
        cases props with
        | nil => exact ⟨_, quote_append (.ofString p.1) _⟩
        | cons q props => exact ⟨_, quote_append (.ofString p.1) _⟩
      obtain ⟨cs, hcs⟩ := hquote
      rw [List.append_nil, hcs] at hread
      rw [parse, objectText, hcs, List.length_cons, value]
      show ((members _ ('"' :: cs)).bind _).bind _ = _
      rw [hread, named, List.map_map]
      rfl

end InvestApi.Codec
