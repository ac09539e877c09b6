import TagLint.Literal.Token

/-!
# From content offsets back to body offsets

The content of a literal can be shorter than its body: an escape sequence takes more bytes
than it stands for, and a raw literal loses its carriage returns. After every token that
shrinks, an anchor records how far the body runs ahead of the content from there on. An
offset map is the list of anchors from left to right, and `toBody` adds what the last
anchor at or before an offset says.
-/

namespace TagLint.Literal

/-- From content offset `start` on, the body runs `extra` bytes ahead. -/
structure Anchor where
  /-- The content offset just after a token that shrinks. -/
  start : Offset
  /-- How many bytes the body has used beyond those of the content. -/
  extra : Offset
deriving DecidableEq, Repr

/-- The anchors of a literal, from left to right. -/
structure OffsetMap where
  /-- One anchor for every token that shrinks. -/
  anchors : List Anchor
deriving DecidableEq, Repr

namespace OffsetMap

/-- The map of a content that is its body. -/
def identity : OffsetMap := ⟨[]⟩

/-- The anchors of tokens that start at the given content and body offsets. -/
def anchorsFrom (content body : Nat) : List Token → List Anchor
  | [] => []
  | token :: tokens =>
    let content := content + token.bytes.length
    let body := body + token.width
    let later := anchorsFrom content body tokens
    if token.shrinks then ⟨Offset.clamp content, Offset.clamp (body - content)⟩ :: later
    else later

/-- The map of a literal body. -/
def ofTokens (tokens : List Token) : OffsetMap := ⟨anchorsFrom 0 0 tokens⟩

/-- How far the body runs ahead at a content offset: what the last anchor at or before it
says, and nothing before the first anchor. -/
def extraAt (map : OffsetMap) (offset : Offset) : Offset :=
  match (map.anchors.takeWhile (·.start ≤ offset)).getLast? with
  | some anchor => anchor.extra
  | none => 0

/-- The body offset of a content offset. -/
def toBody (map : OffsetMap) (offset : Offset) : Offset :=
  Offset.shift offset (map.extraAt offset)

/-- Without anchors a body offset is the content offset. -/
theorem toBody_identity {offset : Offset} (h : offset ≤ Offset.limit) :
    identity.toBody offset = offset := Offset.shift_of_le h

end OffsetMap

end TagLint.Literal
