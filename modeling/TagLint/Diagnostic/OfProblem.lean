import TagLint.Diagnostic.Basic
import TagLint.Lint.Walk

/-!
# Problems as diagnostics

Each kind of problem has its label and its suggestion. Most labels mark a point; an invalid
character is underlined, and so is an unknown key over its length.
-/

namespace TagLint

namespace Problem

/-- What the label of a problem covers. -/
def labelSpan (problem : Problem) : Span :=
  match problem.kind with
  | .invalidKeyChar => ⟨problem.offset, Offset.shift problem.offset 1⟩
  | .unknownKey key => ⟨problem.offset, Offset.shift problem.offset (Offset.clamp key.utf8ByteSize)⟩
  | _ => .point problem.offset

/-- What the label of a problem says. -/
def labelMessage (problem : Problem) : String :=
  match problem.kind with
  | .malformedLiteral => "expected a string literal"
  | .invalidKeyChar => "not allowed in a tag key"
  | .emptyKey => "key expected before ':'"
  | .unknownKey _ => "not in the allow-list"
  | .emptyValue => "value expected here"
  | .unquotedValue => "value should start with '\"'"
  | .unterminatedQuote => "closing '\"' expected here"
  | .missingSeparator => "':' expected here"

/-- How to fix a problem. -/
def suggestion (problem : Problem) : String :=
  match problem.kind with
  | .malformedLiteral => "write tags as a raw string: `key:\"value\"`"
  | .invalidKeyChar => "keys cannot hold spaces, quotes, colons or control characters"
  | .emptyKey => "add a key, as in `json:\"name\"`"
  | .unknownKey key => "pass `--allow-key " ++ key ++ "` to accept it"
  | .emptyValue => "give the key a quoted value or remove the pair"
  | .unquotedValue => "quote the value, as in `key:\"value\"`"
  | .unterminatedQuote => "close the value with '\"'"
  | .missingSeparator => "separate key and value with ':' and no spaces"

/-- The diagnostic of a problem. -/
def toDiagnostic (problem : Problem) : Diagnostic where
  code := problem.kind.code
  message := problem.kind.message
  labels := [⟨problem.labelSpan, problem.labelMessage⟩]
  notes := []
  suggestions := [problem.suggestion]

/-- The diagnostic of a problem with a note on the field that it belongs to. -/
def toFieldDiagnostic (problem : Problem) (typeName fieldName : String) : Diagnostic :=
  { problem.toDiagnostic with
    notes := ["in field `" ++ fieldName ++ "` of `" ++ typeName ++ "`"] }

end Problem

/-- The diagnostic of a problem found by a walk. -/
def Finding.toDiagnostic (finding : Finding) : Diagnostic :=
  finding.problem.toFieldDiagnostic finding.place.decl.displayName finding.place.field.displayName

end TagLint
