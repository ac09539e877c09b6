import TagLint.Json.Basic
import TagLint.Json.Token

/-!
# JSON values as token sequences

`Json.tokens` lists the tokens of a value and `ofTokens?` reads a value from tokens. Reading
keeps the containers that are still open on an explicit stack, one `Frame` each, so nesting
may be as deep as memory allows. A `Cursor` says what may come next.
-/

namespace TagLint.Json

/-! ## From values to tokens -/

mutual

/-- The tokens of a value. -/
def tokens : Json → List Token
  | .null => [.null]
  | .bool value => [.bool value]
  | .number literal => [.number literal]
  | .string text? => [.string text?]
  | .array [] => [.openBracket, .closeBracket]
  | .array (item :: items) => .openBracket :: (item.tokens ++ itemTokens items)
  | .object [] => [.openBrace, .closeBrace]
  | .object ((key, value) :: members) =>
    .openBrace :: .string key :: .colon :: (value.tokens ++ memberTokens members)

/-- The tokens of the items after the first, with the end of the array. -/
def itemTokens : List Json → List Token
  | [] => [.closeBracket]
  | item :: items => .comma :: (item.tokens ++ itemTokens items)

/-- The tokens of the members after the first, with the end of the object. -/
def memberTokens : List (Option String × Json) → List Token
  | [] => [.closeBrace]
  | (key, value) :: members =>
    .comma :: .string key :: .colon :: (value.tokens ++ memberTokens members)

end

/-- A value without blanks. -/
def render (value : Json) : List Char := value.tokens.flatMap Token.render

/-! ## From tokens to values -/

/-- A container that is still open. What is complete inside it is kept in reverse. -/
inductive Frame where
  /-- An array and its items so far. -/
  | array (items : List Json)
  /-- An object, its members so far, and the key whose value is awaited. -/
  | object (members : List (Option String × Json)) (key : Option String)

/-- What may come next, given the containers that are open. -/
inductive Cursor where
  | value (outer : List Frame)
  /-- The first item of an array or its end. -/
  | firstItem (outer : List Frame)
  /-- The first key of an object or its end. -/
  | firstKey (outer : List Frame)
  | nextKey (outer : List Frame) (members : List (Option String × Json))
  | colon (outer : List Frame) (members : List (Option String × Json)) (key : Option String)
  /-- What may follow a complete value. -/
  | after (outer : List Frame) (complete : Json)

/-- The value that a token is by itself. -/
def Token.scalar? : Token → Option Json
  | .null => some .null
  | .bool value => some (.bool value)
  | .number literal => some (.number literal)
  | .string text? => some (.string text?)
  | _ => none

/-- Begins a value. -/
def Cursor.begin? (outer : List Frame) : Token → Option Cursor
  | .openBracket => some (.firstItem outer)
  | .openBrace => some (.firstKey outer)
  | token => token.scalar?.map (.after outer)

/-- Moves past one token, if it may stand there. -/
def Cursor.step? : Cursor → Token → Option Cursor
  | .value outer, token => begin? outer token
  | .firstItem outer, .closeBracket => some (.after outer (.array []))
  | .firstItem outer, token => begin? (.array [] :: outer) token
  | .firstKey outer, .closeBrace => some (.after outer (.object []))
  | .firstKey outer, .string key => some (.colon outer [] key)
  | .nextKey outer members, .string key => some (.colon outer members key)
  | .colon outer members key, .colon => some (.value (.object members key :: outer))
  | .after (.array items :: outer) item, .comma => some (.value (.array (item :: items) :: outer))
  | .after (.array items :: outer) item, .closeBracket =>
    some (.after outer (.array (item :: items).reverse))
  | .after (.object members key :: outer) item, .comma =>
    some (.nextKey outer ((key, item) :: members))
  | .after (.object members key :: outer) item, .closeBrace =>
    some (.after outer (.object ((key, item) :: members).reverse))
  | _, _ => none

/-- The value that a sequence of tokens spells. -/
def ofTokens? (tokens : List Token) : Option Json :=
  match tokens.foldlM Cursor.step? (.value []) with
  | some (.after [] value) => some value
  | _ => none

/-- The value of a JSON text. -/
def parse? (text : List Char) : Option Json := (tokens? text).bind ofTokens?

end TagLint.Json
