import TagLint.Literal.Basic
import TagLint.Text.Numeral
import TagLint.Text.Utf8

/-!
# Tokens of a literal body

A body is read as a list of tokens. A token pairs the characters written in the source
with the bytes it contributes to the content, so the tokens of a body spell the body in
one direction and its content in the other. In a raw body every character is a token of
its own, and a carriage return contributes nothing. In an interpreted body a token is
either a plain character or one escape sequence:

* `\a \b \f \n \r \t \v \\ \"`, one byte each;
* `\xHH`, one byte in base sixteen, and `\OOO`, one byte in base eight;
* `\uHHHH` and `\UHHHHHHHH`, the UTF-8 bytes of one Unicode scalar value.
-/

namespace TagLint.Literal

/-- A token of a literal body: what is written, and what it stands for. -/
structure Token where
  /-- The characters of the body. -/
  source : List Char
  /-- The bytes of the content. -/
  bytes : List UInt8
deriving DecidableEq, Repr

namespace Token

/-- A character that stands for itself. -/
def plain (c : Char) : Token := ⟨[c], String.utf8EncodeChar c⟩

/-- The number of body bytes that a token takes. -/
def width (token : Token) : Nat := Text.byteLength token.source

/-- Whether a token takes more bytes in the body than in the content. -/
def shrinks (token : Token) : Bool := token.bytes.length < token.width

/-- A plain character is as long in the body as in the content. -/
theorem width_plain (c : Char) : (plain c).width = (plain c).bytes.length := by
  simp [plain, width, Text.byteLength]

end Token

/-! ## Raw bodies -/

/-- A character of a raw body; a carriage return is dropped. -/
def Token.ofRaw (c : Char) : Token := if c = '\r' then ⟨['\r'], []⟩ else .plain c

/-- The tokens of a raw body that begins `offset` bytes into it; the delimiter may not
occur. -/
def rawTokens (offset : Offset) : List Char → Except UnquoteError (List Token)
  | [] => .ok []
  | c :: cs =>
    if c = Delimiter.raw.quote then .error (.strayDelimiter offset)
    else (rawTokens (offset + c.utf8Size) cs).map (Token.ofRaw c :: ·)

/-! ## Escape sequences -/

/-- The byte that a letter names after a backslash. -/
def namedEscape? : Char → Option UInt8
  | 'a' => some 0x07
  | 'b' => some 0x08
  | 'f' => some 0x0C
  | 'n' => some 0x0A
  | 'r' => some 0x0D
  | 't' => some 0x09
  | 'v' => some 0x0B
  | '\\' => some 0x5C
  | '"' => some 0x22
  | _ => none

/-- A family of numeric escape sequences: the characters between the backslash and the
digits, the base and number of the digits, and the bytes that a value stands for. -/
structure NumericEscape where
  /-- What stands between the backslash and the digits. -/
  mark : List Char
  base : Nat
  digits : Nat
  /-- The bytes that a value stands for, if it stands for any. -/
  bytes? : Nat → Option (List UInt8)

/-- A value below 256 stands for one byte. -/
def byte? (value : Nat) : Option (List UInt8) :=
  if value < 256 then some [value.toUInt8] else none

/-- A Unicode scalar value stands for the bytes of its character. -/
def scalar? (value : Nat) : Option (List UInt8) :=
  if value.isValidChar then some (String.utf8EncodeChar (Char.ofNat value)) else none

namespace NumericEscape

/-- Two digits in base sixteen after an `x`. -/
def hexByte : NumericEscape := ⟨['x'], 16, 2, byte?⟩

/-- Four digits in base sixteen after a `u`. -/
def shortScalar : NumericEscape := ⟨['u'], 16, 4, scalar?⟩

/-- Eight digits in base sixteen after a `U`. -/
def longScalar : NumericEscape := ⟨['U'], 16, 8, scalar?⟩

/-- Three digits in base eight, at most 377. -/
def octalByte : NumericEscape := ⟨[], 8, 3, byte?⟩

/-- The escape whose digits come first in a text, and the text after them. -/
def read? (escape : NumericEscape) (cs : List Char) : Option (Token × List Char) :=
  let digits := cs.take escape.digits
  if digits.length = escape.digits then do
    let value ← Text.numeral? escape.base digits
    let bytes ← escape.bytes? value
    return (⟨'\\' :: (escape.mark ++ digits), bytes⟩, cs.drop escape.digits)
  else none

/-- The token and the rest spell the text that was read. -/
theorem source_append_of_read? {escape : NumericEscape} {cs rest : List Char} {token : Token}
    (h : escape.read? cs = some (token, rest)) :
    token.source ++ rest = '\\' :: (escape.mark ++ cs) := by
  unfold read? at h
  dsimp only at h
  split at h
  · obtain ⟨value, _, h⟩ := Option.bind_eq_some_iff.1 h
    obtain ⟨bytes, _, h⟩ := Option.bind_eq_some_iff.1 h
    simp only [pure, Option.some.injEq, Prod.mk.injEq] at h
    obtain ⟨rfl, rfl⟩ := h
    simp
  · exact absurd h (by simp)

end NumericEscape

/-- The escape sequence at the start of a text that follows a backslash, and the text
after it. -/
def escape? : List Char → Option (Token × List Char)
  | [] => none
  | 'x' :: cs => NumericEscape.hexByte.read? cs
  | 'u' :: cs => NumericEscape.shortScalar.read? cs
  | 'U' :: cs => NumericEscape.longScalar.read? cs
  | c :: cs =>
    match namedEscape? c with
    | some byte => some (⟨['\\', c], [byte]⟩, cs)
    | none => NumericEscape.octalByte.read? (c :: cs)

/-- An escape sequence and what follows it spell the text, backslash included. -/
theorem source_append_of_escape? {cs rest : List Char} {token : Token}
    (h : escape? cs = some (token, rest)) : token.source ++ rest = '\\' :: cs := by
  unfold escape? at h
  split at h
  · exact absurd h (by simp)
  · exact NumericEscape.source_append_of_read? h
  · exact NumericEscape.source_append_of_read? h
  · exact NumericEscape.source_append_of_read? h
  · split at h
    · simp only [Option.some.injEq, Prod.mk.injEq] at h
      obtain ⟨rfl, rfl⟩ := h
      rfl
    · exact NumericEscape.source_append_of_read? h

/-! ## Interpreted bodies -/

/-- Every escape sequence takes the backslash and at least one character after it. -/
theorem length_rest_lt_of_escape? {cs rest : List Char} {token : Token}
    (h : escape? cs = some (token, rest)) : rest.length < cs.length := by
  have hread {escape : NumericEscape} {ds : List Char}
      (hpos : 0 < escape.digits) (h : escape.read? ds = some (token, rest)) :
      rest.length < ds.length := by
    unfold NumericEscape.read? at h
    dsimp only at h
    split at h
    · rename_i hlen
      obtain ⟨value, _, h⟩ := Option.bind_eq_some_iff.1 h
      obtain ⟨bytes, _, h⟩ := Option.bind_eq_some_iff.1 h
      simp only [pure, Option.some.injEq, Prod.mk.injEq] at h
      rw [← h.2, List.length_drop]
      rw [List.length_take] at hlen
      omega
    · exact absurd h (by simp)
  unfold escape? at h
  split at h
  · exact absurd h (by simp)
  · exact Nat.lt_succ_of_lt (hread (by decide) h)
  · exact Nat.lt_succ_of_lt (hread (by decide) h)
  · exact Nat.lt_succ_of_lt (hread (by decide) h)
  · split at h
    · simp only [Option.some.injEq, Prod.mk.injEq] at h
      simp [h.2]
    · exact hread (by decide) h

/-- The tokens of an interpreted body that begins `offset` bytes into it: plain characters
other than the quote, the backslash and the newline, and escape sequences. -/
def interpretedTokens (offset : Offset) : List Char → Except UnquoteError (List Token)
  | [] => .ok []
  | c :: cs =>
    if c = Delimiter.interpreted.quote then .error (.strayDelimiter offset)
    else if c = '\n' then .error (.newline offset)
    else if c = '\\' then
      match _h : escape? cs with
      | some (token, rest) => (interpretedTokens (offset + token.width) rest).map (token :: ·)
      | none => .error (.invalidEscape offset)
    else (interpretedTokens (offset + c.utf8Size) cs).map (Token.plain c :: ·)
termination_by cs => cs.length
decreasing_by
  · exact Nat.lt_succ_of_lt (length_rest_lt_of_escape? _h)
  · exact Nat.lt_succ_self _

/-- The tokens of a body, read as its delimiter demands. -/
def tokens : Delimiter → List Char → Except UnquoteError (List Token)
  | .raw => rawTokens 0
  | .interpreted => interpretedTokens 0

end TagLint.Literal
