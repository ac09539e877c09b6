import TagLint.Literal.OffsetMap

/-!
# The content of a literal

`unquote` gives the content that a delimited literal denotes, together with the map from
content offsets back into the literal body. `unescape` resolves the escape sequences of a
text that has no delimiters, such as the value of a quoted pair inside a tag. Bytes that
are not UTF-8, which only numeric escapes can produce, decode to U+FFFD.
-/

namespace TagLint.Literal

/-- The content of a literal and the way back into its body. -/
structure Unquoted where
  content : List Char
  /-- Body offsets of content offsets. -/
  map : OffsetMap
deriving DecidableEq, Repr

/-- The bytes that a list of tokens stands for. -/
def contentBytes (tokens : List Token) : List UInt8 := tokens.flatMap Token.bytes

/-- What a list of tokens denotes. -/
def Unquoted.ofTokens (tokens : List Token) : Unquoted :=
  ⟨Text.decodeLossy (contentBytes tokens), .ofTokens tokens⟩

/-- The content of a delimited literal. -/
def unquote (text : List Char) : Except UnquoteError Unquoted :=
  match body? text with
  | none => .error .notDelimited
  | some (delimiter, body) => (tokens delimiter body).map Unquoted.ofTokens

/-- The content of an interpreted body. -/
def unescape (body : List Char) : Except UnquoteError (List Char) :=
  (tokens .interpreted body).map fun tokens => (Unquoted.ofTokens tokens).content

end TagLint.Literal
