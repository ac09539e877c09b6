import TagLint.Offset
import TagLint.Text.Basic

/-!
# Literals and their delimiters

A tag is written in the source as a raw literal between backquotes or as an interpreted
literal between double quotes. This module strips the delimiters and names the ways in
which a literal can fail to denote a content.
-/

namespace TagLint.Literal

/-- How a literal is delimited. -/
inductive Delimiter where
  /-- Between backquotes: no escapes, carriage returns dropped. -/
  | raw
  /-- Between double quotes: backslash escapes, no raw newlines. -/
  | interpreted
deriving DecidableEq, Repr

/-- The character on both sides of a literal. -/
def Delimiter.quote : Delimiter → Char
  | .raw => '\x60'
  | .interpreted => '"'

/-- Whether a character delimits some kind of literal. -/
def isQuote (c : Char) : Bool := c == Delimiter.raw.quote || c == Delimiter.interpreted.quote

/-- The text between an opening quote and the same quote at the very end. -/
def Delimiter.body? (delimiter : Delimiter) : List Char → Option (List Char)
  | [] => none
  | first :: rest =>
    if first = delimiter.quote ∧ rest.getLast? = some delimiter.quote then some rest.dropLast
    else none

/-- The delimiter of a literal and the body inside it; the two quotes must be distinct
characters of the text. -/
def body? (text : List Char) : Option (Delimiter × List Char) :=
  match Delimiter.raw.body? text with
  | some body => some (.raw, body)
  | none => (Delimiter.interpreted.body? text).map fun body => (.interpreted, body)

/-- The delimiter of a literal, if both ends carry the same quote. -/
def delimiter? (text : List Char) : Option Delimiter := (body? text).map Prod.fst

/-- A delimited text is its body between its quotes. -/
theorem Delimiter.eq_of_body? {delimiter : Delimiter} {text body : List Char}
    (h : delimiter.body? text = some body) :
    text = delimiter.quote :: (body ++ [delimiter.quote]) := by
  cases text with
  | nil => simp [Delimiter.body?] at h
  | cons first rest =>
    simp only [Delimiter.body?] at h
    split at h
    · rename_i hq
      obtain ⟨hfirst, hlast⟩ := hq
      obtain rfl := Option.some.inj h
      obtain ⟨body, rfl⟩ := List.getLast?_eq_some_iff.1 hlast
      simp [hfirst]
    · exact absurd h (by simp)

/-- Why a literal denotes no content. Offsets count from the start of the body. -/
inductive UnquoteError where
  /-- The text does not lie between two equal quotes. -/
  | notDelimited
  /-- The delimiter stands inside the body. -/
  | strayDelimiter (offset : Offset)
  /-- A raw newline stands inside an interpreted body. -/
  | newline (offset : Offset)
  /-- A backslash begins no escape sequence. -/
  | invalidEscape (offset : Offset)
deriving DecidableEq, Repr

/-- What the error tells a reader. -/
def UnquoteError.message : UnquoteError → String
  | .notDelimited => "literal is not delimited by quotes"
  | .strayDelimiter offset => "unexpected closing delimiter at offset " ++ Nat.repr offset
  | .newline offset => "newline in interpreted literal at offset " ++ Nat.repr offset
  | .invalidEscape offset => "invalid escape sequence at offset " ++ Nat.repr offset

end TagLint.Literal
