import TagLint.Json.Value
import TagLint.Render.Terminal

/-!
# Diagnostics as JSON records

A diagnostic becomes an object whose members stand in alphabetical order. A label has its
line and column exactly when the source is known; they are those of the first byte of its
span.
-/

namespace TagLint

/-- A label as a record. -/
def Label.toJson (source? : Option SourceText) (label : Label) : Json :=
  let start := ("start", Json.nat label.span.start)
  let stop := ("end", Json.nat label.span.stop)
  let message := ("message", Json.text label.message)
  match source? with
  | some source =>
    let (line, column) := source.position label.span.start
    .record [("column", .nat column), stop, ("line", .nat line), message, start]
  | none => .record [stop, message, start]

/-- A diagnostic as a record; every diagnostic is an error. -/
def Diagnostic.toJson (view : FileView) (diagnostic : Diagnostic) : Json :=
  .record [
    ("code", .text diagnostic.code.toText),
    ("file", (view.path?.map Json.text).getD .null),
    ("labels", .array (diagnostic.labels.map (Label.toJson view.text?))),
    ("message", .text diagnostic.message),
    ("notes", .texts diagnostic.notes),
    ("severity", .text "error"),
    ("suggestions", .texts diagnostic.suggestions)]

end TagLint
