import TagLint.Literal.Unquote

/-!
# Literals made ready for scanning

A literal that cannot be unquoted is still worth scanning: its content is then the text
without the quote characters at either end, and the reason for the failure is kept beside
it. Either way `literalOffset` says where in the literal a content offset lies.
-/

namespace TagLint.Literal

/-- A content to scan, and where it lies in its literal. -/
structure Prepared where
  content : List Char
  /-- The literal offset of the first content byte. -/
  contentStart : Offset
  /-- Body offsets of content offsets; the identity for a trimmed content. -/
  map : OffsetMap
  /-- Why the content is only the trimmed text, if it is. -/
  error? : Option UnquoteError
deriving DecidableEq, Repr

/-- The offset from the start of the literal of a content offset. -/
def Prepared.literalOffset (prepared : Prepared) (offset : Offset) : Offset :=
  Offset.shift prepared.contentStart (prepared.map.toBody offset)

/-- The text without the quotes at either end, whether they match or not. -/
def trimmed (text : List Char) (error : UnquoteError) : Prepared where
  content := Text.dropEndWhile isQuote (text.dropWhile isQuote)
  contentStart := Offset.clamp (Text.byteLength (text.takeWhile isQuote))
  map := .identity
  error? := some error

/-- The content of a literal, falling back to the trimmed text. -/
def prepare (text : List Char) : Prepared :=
  match unquote text with
  | .ok unquoted => ⟨unquoted.content, 1, unquoted.map, none⟩
  | .error error => trimmed text error

end TagLint.Literal
