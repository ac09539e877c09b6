import TagLint.Diagnostic.Basic
import TagLint.Render.Styled
import TagLint.Source.Lines

/-!
# Diagnostics on a terminal

A diagnostic is a head line, its labels, its notes and its suggestions, and an empty line.
Where the source is known a label shows the line it starts on with carets under the span;
otherwise it shows the span as byte offsets.
-/

namespace TagLint

/-- The file that spans point into, as far as it is known. -/
structure FileView where
  /-- How the file is named. -/
  path? : Option String
  source? : Option String
deriving DecidableEq, Repr

namespace FileView

/-- Neither a name nor a text. -/
def unknown : FileView := ⟨none, none⟩

/-- The source with its line table. -/
def text? (view : FileView) : Option SourceText := view.source?.map SourceText.ofString

end FileView

/-- When terminal output is coloured. -/
inductive ColorMode where
  /-- When the output is a terminal. -/
  | auto
  | always
  | never
deriving DecidableEq, Repr

/-- Whether to write colours on an output that is a terminal or not. -/
def ColorMode.resolve (mode : ColorMode) (isTerminal : Bool) : Bool :=
  match mode with
  | auto => isTerminal
  | always => true
  | never => false

namespace Terminal

/-- The path of a view with what separates it from a position. -/
def pathPart (view : FileView) (separator : String) : String :=
  match view.path? with
  | some path => path ++ separator
  | none => ""

/-- A label as a span of byte offsets. -/
def spanLabel (view : FileView) (label : Label) : List Fragment :=
  [.plain ("  --> " ++ pathPart view "@" ++ label.span.toText ++ ": "),
    .styled .error label.message, .plain "\n"]

/-- Where a span is underlined: its line, its first column, the text of the line and the
number of carets. A span that leaves its line is underlined to the end of the line, and an
empty one gets a single caret. -/
structure Underline where
  line : Nat
  /-- The column of the first caret. -/
  column : Nat
  text : List Char
  carets : Nat
deriving DecidableEq, Repr

/-- The underline of a span. -/
def Underline.ofSpan (source : SourceText) (span : Span) : Underline :=
  let (line, column) := source.position span.start
  let (endLine, endColumn) := source.position span.stop
  let text := source.line line
  let stop := if endLine = line then endColumn else text.length + 1
  ⟨line, column, text, max 1 (stop - column)⟩

/-- What fills the caret line up to the first caret: a tab for a tab and a space for every
other character, so that carets line up under tabbed text. -/
def Underline.padding (underline : Underline) : List Char :=
  (underline.text.take (underline.column - 1)).map fun c => if c = '\t' then '\t' else ' '

/-- A label under its source line. -/
def snippetLabel (view : FileView) (source : SourceText) (label : Label) : List Fragment :=
  let underline := Underline.ofSpan source label.span
  let number := Nat.repr underline.line
  let gutter := String.ofList (List.replicate number.length ' ')
  [.plain (gutter ++ "--> " ++ pathPart view ":" ++ number ++ ":" ++ Nat.repr underline.column ++
      "\n" ++ gutter ++ " |\n" ++ number ++ " | " ++ String.ofList underline.text ++ "\n" ++
      gutter ++ " | " ++ String.ofList underline.padding),
    .styled .error (String.ofList (List.replicate underline.carets '^')), .plain " ",
    .styled .error label.message, .plain "\n"]

/-- A label, under its source line where the source is known. -/
def label (view : FileView) (label : Label) : List Fragment :=
  match view.text? with
  | some source => snippetLabel view source label
  | none => spanLabel view label

/-- A remark below the labels, introduced by a styled word. -/
def remark (style : Style) (word text : String) : List Fragment :=
  [.plain "  = ", .styled style word, .plain (": " ++ text ++ "\n")]

/-- A diagnostic, closed by an empty line. -/
def diagnostic (view : FileView) (diagnostic : Diagnostic) : List Fragment :=
  [.styled .error "error", .styled .bold ("[" ++ diagnostic.code.toText ++ "]"),
    .plain (": " ++ diagnostic.message ++ "\n")] ++
    diagnostic.labels.flatMap (label view) ++
    diagnostic.notes.flatMap (remark .bold "note") ++
    diagnostic.suggestions.flatMap (remark .help "help") ++ [.plain "\n"]

/-- The closing line of a run; a clean run has none. -/
def summary (problems : Nat) : List Fragment :=
  if problems = 0 then []
  else
    [.styled .error "error",
      .plain (": " ++ Nat.repr problems ++ " tag problem" ++ (if problems = 1 then "" else "s") ++
        " found\n")]

end Terminal

end TagLint
