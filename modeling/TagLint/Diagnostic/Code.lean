import TagLint.Tag.Problem
import TagLint.Text.Blank

/-!
# Diagnostic codes

Every kind of problem has a stable code, `T0001` to `T0008`, numbered in the order in which
problems are described: the literal first, then the key, then the value. Codes are read in
either case and between blanks.
-/

namespace TagLint

/-- The code of a kind of problem. -/
inductive Code where
  /-- T0001 -/
  | malformedLiteral
  /-- T0002 -/
  | invalidKeyChar
  /-- T0003 -/
  | emptyKey
  /-- T0004 -/
  | unknownKey
  /-- T0005 -/
  | emptyValue
  /-- T0006 -/
  | unquotedValue
  /-- T0007 -/
  | unterminatedQuote
  /-- T0008 -/
  | missingSeparator
deriving DecidableEq, Repr

namespace Code

/-- All codes, in the order of their numbers. -/
def all : List Code :=
  [malformedLiteral, invalidKeyChar, emptyKey, unknownKey, emptyValue, unquotedValue,
    unterminatedQuote, missingSeparator]

/-- How a code is written. -/
def toText : Code → String
  | malformedLiteral => "T0001"
  | invalidKeyChar => "T0002"
  | emptyKey => "T0003"
  | unknownKey => "T0004"
  | emptyValue => "T0005"
  | unquotedValue => "T0006"
  | unterminatedQuote => "T0007"
  | missingSeparator => "T0008"

/-- The one-line summary of a code in the list of all codes. -/
def title : Code → String
  | malformedLiteral => "tag is not a string literal"
  | invalidKeyChar => "invalid character in tag key"
  | emptyKey => "empty tag key"
  | unknownKey => "tag key not in the allow-list"
  | emptyValue => "empty tag value"
  | unquotedValue => "unquoted tag value"
  | unterminatedQuote => "unterminated value quote"
  | missingSeparator => "missing key-value separator"

/-- The code that a text names. A code holds one letter, whose only other form is the lower
case `t`, so raising ASCII letters suffices. -/
def ofText? (text : String) : Option Code :=
  let name := String.ofList ((Text.trimBlanks text.toList).map Char.toUpper)
  all.find? fun code => code.toText == name

theorem mem_all (code : Code) : code ∈ all := by cases code <;> decide

end Code

/-- The code of a kind of problem. -/
def ProblemKind.code : ProblemKind → Code
  | .malformedLiteral => .malformedLiteral
  | .invalidKeyChar => .invalidKeyChar
  | .emptyKey => .emptyKey
  | .unknownKey _ => .unknownKey
  | .emptyValue => .emptyValue
  | .unquotedValue => .unquotedValue
  | .unterminatedQuote => .unterminatedQuote
  | .missingSeparator => .missingSeparator

end TagLint
