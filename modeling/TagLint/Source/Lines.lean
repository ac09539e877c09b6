import TagLint.Text.Basic

/-!
# Lines and columns

A line table holds the byte offset at which each line of a source starts. With it an offset
becomes a line number and a column, both counted from one; the column counts characters. An
offset inside a character belongs to that character, and one past the end of the source to
its end.
-/

namespace TagLint

/-- The byte offsets at which lines start, in increasing order. -/
structure LineTable where
  starts : List Nat
deriving DecidableEq, Repr

namespace LineTable

/-- The offsets just after each newline of a text that begins at `offset`. -/
def startsAfterNewlines (offset : Nat) : List Char → List Nat
  | [] => []
  | c :: cs =>
    let next := offset + c.utf8Size
    let later := startsAfterNewlines next cs
    if c = '\n' then next :: later else later

/-- The table of a source: a line starts at its beginning and after each newline. -/
def ofSource (source : List Char) : LineTable := ⟨0 :: startsAfterNewlines 0 source⟩

/-- The table that knows no line. -/
def empty : LineTable := ⟨[]⟩

/-- The number of the line that holds an offset. -/
def lineOf (table : LineTable) (offset : Nat) : Nat :=
  max 1 (table.starts.countP (· ≤ offset))

/-- The offset at which a line starts. -/
def lineStart? (table : LineTable) (line : Nat) : Option Nat :=
  if line = 0 then none else table.starts[line - 1]?

end LineTable

namespace Text

/-- The last boundary at or before a position, but none before `least`. -/
def boundaryBefore (cs : List Char) (least : Nat) : Nat → Nat
  | 0 => 0
  | position + 1 =>
    if least < position + 1 ∧ !isBoundary cs (position + 1) then
      boundaryBefore cs least position
    else position + 1

end Text

namespace LineTable

/-- The column of an offset on a line: one more than the characters between them. -/
def columnOf (table : LineTable) (source : List Char) (line offset : Nat) : Nat :=
  let start := (table.lineStart? line).getD 0
  let stop := Text.boundaryBefore source start (min offset (Text.byteLength source))
  (Text.slice start stop source).length + 1

/-- The line and column of an offset. -/
def position (table : LineTable) (source : List Char) (offset : Nat) : Nat × Nat :=
  let line := table.lineOf offset
  (line, table.columnOf source line offset)

/-- The text of a line without the newline and carriage returns at its end. -/
def lineText? (table : LineTable) (source : List Char) (line : Nat) : Option (List Char) := do
  let start ← table.lineStart? line
  let stop := (table.lineStart? (line + 1)).getD (Text.byteLength source)
  let text ← Text.slice? start stop source
  return Text.dropEndWhile (fun c => c == '\n' || c == '\r') text

end LineTable

/-- A source text with its line table. -/
structure SourceText where
  text : List Char
  lines : LineTable
deriving DecidableEq, Repr

namespace SourceText

/-- A source with the table of its own lines. -/
def ofString (source : String) : SourceText := ⟨source.toList, .ofSource source.toList⟩

/-- The line and column of an offset. -/
def position (source : SourceText) (offset : Nat) : Nat × Nat :=
  source.lines.position source.text offset

/-- The visible text of a line, empty if there is no such line. -/
def line (source : SourceText) (number : Nat) : List Char :=
  (source.lines.lineText? source.text number).getD []

end SourceText

end TagLint
