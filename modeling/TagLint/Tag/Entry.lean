import TagLint.Literal.Unquote
import TagLint.Span

/-!
# Entries of a tag

An entry is one `key:"value"` pair of a tag, or what is left of a malformed one. The
scanner first finds an entry as two spans of the content (`RawEntry`); `Entry.ofRaw` cuts
the texts out and moves the offsets into the source.
-/

namespace TagLint

/-- An entry as spans of the tag content. An empty key or value is a point span at the
offset at which problems with it are reported. -/
structure RawEntry where
  key : Span
  /-- The value, without its quotes. -/
  value : Span
  /-- The value was opened with a quote. -/
  quoted : Bool
  /-- The value was opened with a quote and the content ended inside it. -/
  unterminated : Bool
  /-- A colon stands between key and value. -/
  separated : Bool
deriving DecidableEq, Repr

/-- An entry with its texts. The key keeps its invalid characters and the value its escape
sequences. -/
structure Entry where
  key : String
  /-- The text of the value, escapes unresolved. -/
  value : String
  keyOffset : Offset
  valueOffset : Offset
  /-- Just past the last byte of the value. -/
  valueEnd : Offset
  /-- The value was opened with a quote. -/
  quoted : Bool
  /-- The value was opened with a quote and the content ended inside it. -/
  unterminated : Bool
  /-- A colon stands between key and value. -/
  separated : Bool
deriving DecidableEq, Repr

/-- The text of a span of the content. -/
def Span.cut (span : Span) (content : List Char) : String :=
  String.ofList (Text.slice span.start span.stop content)

namespace Entry

/-- The entry that spans of the content describe, with its offsets moved into the source. -/
def ofRaw (content : List Char) (toSource : Offset → Offset) (raw : RawEntry) : Entry where
  key := raw.key.cut content
  value := raw.value.cut content
  keyOffset := toSource raw.key.start
  valueOffset := toSource raw.value.start
  valueEnd := toSource raw.value.stop
  quoted := raw.quoted
  unterminated := raw.unterminated
  separated := raw.separated

/-- The value as a reader of the tag sees it: a quoted value with its escapes resolved,
unless it holds a raw newline or a sequence that is no escape. -/
def unescapedValue? (entry : Entry) : Option String :=
  if entry.quoted then
    match Literal.unescape entry.value.toList with
    | .ok value => some (String.ofList value)
    | .error _ => none
  else some entry.value

end Entry

end TagLint
