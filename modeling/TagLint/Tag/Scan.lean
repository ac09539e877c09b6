import TagLint.Literal.Prepared
import TagLint.Tag.Problem
import TagLint.Tag.State

/-!
# Scanning a whole tag

`State.run` takes the state machine through a stretch of content and collects what it
reports; running over two stretches in turn is running over both together
(`State.run_append`). `scan` runs over a whole content and moves what was found to source
offsets; `TagLiteral.scan` first reduces a literal to its content.
-/

namespace TagLint

/-- What the machine reports over a stretch of content, and where it ends. -/
structure Trace where
  /-- The entries finished, from left to right. -/
  entries : List RawEntry
  /-- The offsets of the characters that may not stand where they do. -/
  invalid : List Offset
  last : State
deriving DecidableEq, Repr

/-- Runs the machine over a stretch of content that starts at `offset`. The offsets it goes by
are exact; with offsets kept within `Offset.limit` it would go by the same ones in contents of at
most `limit` bytes, and only in those. -/
def State.run (offset : Offset) (state : State) : List Char → Trace
  | [] => ⟨[], [], state⟩
  | c :: cs =>
    let step := state.step offset c
    let rest := step.next.run (offset + c.utf8Size) cs
    ⟨step.entry?.toList ++ rest.entries,
      if step.invalid then offset :: rest.invalid else rest.invalid, rest.last⟩

/-- A run over two stretches is a run over the first followed by one over the second. -/
theorem State.run_append (offset : Offset) (state : State) (cs ds : List Char) :
    state.run offset (cs ++ ds) =
      let first := state.run offset cs
      let second := first.last.run (offset + Text.byteLength cs) ds
      ⟨first.entries ++ second.entries, first.invalid ++ second.invalid, second.last⟩ := by
  induction cs generalizing offset state with
  | nil => simp [State.run]
  | cons c cs ih =>
    simp only [List.cons_append, State.run, ih, Text.byteLength_cons, Nat.add_assoc]
    split <;> simp

/-- The entries of a content, the one open at its end included. -/
def rawEntries (content : List Char) : List RawEntry :=
  let trace := State.between.run 0 content
  trace.entries ++ (trace.last.finish? (Text.byteLength content)).toList

/-- The offsets of the characters of a content that may not stand where they do. -/
def invalidOffsets (content : List Char) : List Offset := (State.between.run 0 content).invalid

/-- Everything that scanning finds, from left to right. -/
structure ScanResult where
  /-- The entries, well formed or not. -/
  entries : List Entry
  /-- The problems that scanning alone can see. -/
  problems : List Problem
deriving DecidableEq, Repr

/-- Scans a content whose offsets `toSource` moves into the source. -/
def scanWith (toSource : Offset → Offset) (content : List Char) : ScanResult where
  entries := (rawEntries content).map (Entry.ofRaw content toSource)
  problems := (invalidOffsets content).map fun offset =>
    (Problem.mk .invalidKeyChar offset).relocate toSource

/-- Scans a content whose first byte lies at `base` in the source. -/
def scan (content : List Char) (base : Offset) : ScanResult := scanWith (Offset.shift base) content

/-- A tag as it is written in the source, quotes included. -/
structure TagLiteral where
  text : String
  offset : Offset
deriving DecidableEq, Repr

/-- Scans the content of a literal. An empty literal holds nothing; one that does not
unquote is reported at its start, and what is left of it is scanned all the same. -/
def TagLiteral.scan (literal : TagLiteral) : ScanResult :=
  if literal.text.isEmpty then ⟨[], []⟩
  else
    let prepared := Literal.prepare literal.text.toList
    let toSource := fun offset => Offset.shift literal.offset (prepared.literalOffset offset)
    let found := scanWith toSource prepared.content
    if prepared.error?.isSome then
      { found with problems := ⟨.malformedLiteral, literal.offset⟩ :: found.problems }
    else found

end TagLint
