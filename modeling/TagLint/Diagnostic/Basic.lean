import TagLint.Diagnostic.Code
import TagLint.Span

/-!
# Diagnostics

A diagnostic is what is shown to a reader: a code with its message, labelled spans of the
source, notes, and suggestions for a fix. `Diagnostic.toText` is its plain text, one line
for the head and one for each part.
-/

namespace TagLint

/-- A span of the source with what is to be said of it. -/
structure Label where
  span : Span
  message : String
deriving DecidableEq, Repr

/-- A report on one problem. -/
structure Diagnostic where
  code : Code
  message : String
  labels : List Label
  notes : List String
  suggestions : List String
deriving DecidableEq, Repr

namespace Diagnostic

/-- The plain text of a diagnostic, with spans as byte offsets. -/
def toText (diagnostic : Diagnostic) : String :=
  "error[" ++ diagnostic.code.toText ++ "]: " ++ diagnostic.message ++
    String.join (diagnostic.labels.map fun label =>
      "\n  --> " ++ label.span.toText ++ ": " ++ label.message) ++
    String.join (diagnostic.notes.map fun note => "\n  = note: " ++ note) ++
    String.join (diagnostic.suggestions.map fun hint => "\n  = help: " ++ hint)

end Diagnostic

end TagLint
