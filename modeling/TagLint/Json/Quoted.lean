import TagLint.Text.Numeral

/-!
# Strings of JSON

Reading and writing what stands between the quotes of a string. `stringBody?` reads the
places of a string, each a character or sixteen bits, and `chars?` joins the bits into
characters. `quoteText` escapes only the quote, the backslash and the characters below
U+0020.
-/

namespace TagLint.Json

/-! ## Reading -/

/-- What one place of a string contributes: a character, or the sixteen bits of an escape
`\uHHHH`. -/
inductive Unit16 where
  | char (c : Char)
  | code (bits : Nat)
deriving DecidableEq, Repr

/-- The character that a single letter names after a backslash. -/
def namedEscape? : Char → Option Char
  | '"' => some '"'
  | '\\' => some '\\'
  | '/' => some '/'
  | 'b' => some '\x08'
  | 'f' => some '\x0c'
  | 'n' => some '\n'
  | 'r' => some '\r'
  | 't' => some '\t'
  | _ => none

/-- The places of a string up to its closing quote, and the text after the quote. -/
def stringBody? : List Char → Option (List Unit16 × List Char)
  | [] => none
  | '"' :: cs => some ([], cs)
  | '\\' :: 'u' :: a :: b :: c :: d :: cs =>
    match Text.numeral? 16 [a, b, c, d] with
    | some bits => (stringBody? cs).map fun (units, rest) => (.code bits :: units, rest)
    | none => none
  | '\\' :: letter :: cs =>
    match namedEscape? letter with
    | some c => (stringBody? cs).map fun (units, rest) => (.char c :: units, rest)
    | none => none
  | c :: cs =>
    if c = '\\' ∨ c.toNat < 0x20 then none
    else (stringBody? cs).map fun (units, rest) => (.char c :: units, rest)

/-- A string ends before the text after it begins. -/
theorem length_rest_lt_of_stringBody? {cs rest : List Char} {units : List Unit16}
    (h : stringBody? cs = some (units, rest)) : rest.length < cs.length := by
  have hmap {cs : List Char} {units : List Unit16} {f : List Unit16 → List Unit16}
      (ih : ∀ {units}, stringBody? cs = some (units, rest) → rest.length < cs.length)
      (h : ((stringBody? cs).map fun (units, rest) => (f units, rest)) = some (units, rest)) :
      rest.length < cs.length := by
    obtain ⟨⟨units', rest'⟩, hbody, heq⟩ := Option.map_eq_some_iff.1 h
    simp only [Prod.mk.injEq] at heq
    exact ih (heq.2 ▸ hbody)
  fun_induction stringBody? cs generalizing units with
  | case1 => simp at h
  | case2 cs => simp_all
  | case3 a b c d cs bits _ ih =>
    have := hmap ih h
    simp only [List.length_cons]
    omega
  | case4 => simp at h
  | case5 letter cs _ c _ ih =>
    have := hmap ih h
    simp only [List.length_cons]
    omega
  | case6 => simp at h
  | case7 => simp at h
  | case8 c cs _ _ _ _ ih =>
    have := hmap ih h
    simp only [List.length_cons]
    omega

/-- The first half of a surrogate pair. -/
def isHighSurrogate (bits : Nat) : Bool := 0xD800 ≤ bits && bits < 0xDC00

/-- The second half of a surrogate pair. -/
def isLowSurrogate (bits : Nat) : Bool := 0xDC00 ≤ bits && bits < 0xE000

/-- The character of a surrogate pair. -/
def pairChar (high low : Nat) : Char :=
  Char.ofNat (0x10000 + (high - 0xD800) * 0x400 + (low - 0xDC00))

/-- The characters that the places of a string spell; `none` where half of a surrogate
pair stands alone. -/
def chars? : List Unit16 → Option (List Char)
  | [] => some []
  | .char c :: units => (chars? units).map (c :: ·)
  | .code high :: .code low :: units =>
    if isHighSurrogate high then
      if isLowSurrogate low then (chars? units).map (pairChar high low :: ·) else none
    else if isLowSurrogate high then none
    else (chars? (.code low :: units)).map (Char.ofNat high :: ·)
  | .code bits :: units =>
    if isHighSurrogate bits || isLowSurrogate bits then none
    else (chars? units).map (Char.ofNat bits :: ·)

/-! ## Writing -/

/-- A digit in base sixteen, in lower case. -/
def hexChar (n : Nat) : Char := Nat.digitChar (n % 16)

/-- A character inside a string. -/
def escapeChar (c : Char) : List Char :=
  if c = '"' then ['\\', '"']
  else if c = '\\' then ['\\', '\\']
  else if c = '\x08' then ['\\', 'b']
  else if c = '\x0c' then ['\\', 'f']
  else if c = '\n' then ['\\', 'n']
  else if c = '\r' then ['\\', 'r']
  else if c = '\t' then ['\\', 't']
  else if c.toNat < 0x20 then ['\\', 'u', '0', '0', hexChar (c.toNat / 16), hexChar c.toNat]
  else [c]

/-- A text between quotes. -/
def quoteText (s : String) : List Char := '"' :: (s.toList.flatMap escapeChar ++ ['"'])

end TagLint.Json
