import TagLint.Offset

/-!
# Problems of a tag

Nothing in scanning or validation fails: whatever is wrong with a tag becomes a problem, a
kind with the offset at which it is reported.
-/

namespace TagLint

/-- What is wrong with a tag. -/
inductive ProblemKind where
  /-- The literal is not delimited by quotes, or does not unquote. -/
  | malformedLiteral
  /-- A character that a key may not hold, or a control character outside a value. -/
  | invalidKeyChar
  /-- A colon with no key before it. -/
  | emptyKey
  /-- A key that is not in the allow-list. -/
  | unknownKey (key : String)
  /-- A pair whose value is empty. -/
  | emptyValue
  /-- A value that does not start with a quote. -/
  | unquotedValue
  /-- A quoted value without its closing quote. -/
  | unterminatedQuote
  /-- A quoted value that follows its key with no colon between them. -/
  | missingSeparator
deriving DecidableEq, Repr

/-- The one-line description of a kind of problem. -/
def ProblemKind.message : ProblemKind → String
  | .malformedLiteral => "tags should be in a string literal"
  | .invalidKeyChar => "invalid tag key character"
  | .emptyKey => "empty tag key"
  | .unknownKey key => "unknown tag key '" ++ key ++ "'"
  | .emptyValue => "empty tag value"
  | .unquotedValue => "tag values should be quoted"
  | .unterminatedQuote => "unterminated value quote"
  | .missingSeparator => "missing key-value separator"

/-- A problem and where it is reported. -/
structure Problem where
  kind : ProblemKind
  offset : Offset
deriving DecidableEq, Repr

namespace Problem

/-- The description of a problem with its offset. -/
def toText (problem : Problem) : String :=
  problem.kind.message ++ " at " ++ Nat.repr problem.offset

/-- The problem seen from another system of offsets. -/
def relocate (toSource : Offset → Offset) (problem : Problem) : Problem :=
  { problem with offset := toSource problem.offset }

@[simp] theorem relocate_mk (toSource : Offset → Offset) (kind : ProblemKind) (offset : Offset) :
    (Problem.mk kind offset).relocate toSource = ⟨kind, toSource offset⟩ := rfl

end Problem

end TagLint
