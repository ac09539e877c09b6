import TagLint.Json.Number
import TagLint.Json.Quoted

/-!
# JSON tokens

A JSON text is a sequence of tokens with blanks around them. `tokens?` reads the tokens of
a text and refuses a text with anything else in it; `Token.render` writes a token in its
shortest form.
-/

namespace TagLint.Json

/-- A token of a JSON text. -/
inductive Token where
  | openBracket
  | closeBracket
  | openBrace
  | closeBrace
  | colon
  | comma
  | null
  | bool (value : Bool)
  /-- A number as it is written. -/
  | number (literal : List Char)
  /-- A string; `none` if it holds an unpaired surrogate. -/
  | string (text? : Option String)
deriving DecidableEq, Repr

/-! ## Reading -/

/-- The blanks of JSON: space, tab, newline and carriage return. -/
def isBlank (c : Char) : Bool := c == ' ' || c == '\t' || c == '\n' || c == '\r'

/-- The token at the start of a text that does not begin with a blank, and the text after
it. -/
def Token.next? : List Char → Option (Token × List Char)
  | '[' :: cs => some (.openBracket, cs)
  | ']' :: cs => some (.closeBracket, cs)
  | '\x7b' :: cs => some (.openBrace, cs)
  | '\x7d' :: cs => some (.closeBrace, cs)
  | ':' :: cs => some (.colon, cs)
  | ',' :: cs => some (.comma, cs)
  | 'n' :: 'u' :: 'l' :: 'l' :: cs => some (.null, cs)
  | 't' :: 'r' :: 'u' :: 'e' :: cs => some (.bool true, cs)
  | 'f' :: 'a' :: 'l' :: 's' :: 'e' :: cs => some (.bool false, cs)
  | '"' :: cs => (stringBody? cs).map fun (units, rest) =>
    (.string ((chars? units).map String.ofList), rest)
  | cs => (number? cs).map fun (literal, rest) => (.number literal, rest)

/-- Every token takes at least one character. -/
theorem length_rest_lt_of_next? {cs rest : List Char} {token : Token}
    (h : Token.next? cs = some (token, rest)) : rest.length < cs.length := by
  unfold Token.next? at h
  split at h
  case h_10 =>
    obtain ⟨⟨units, rest⟩, hbody, heq⟩ := Option.map_eq_some_iff.1 h
    have := length_rest_lt_of_stringBody? hbody
    grind
  case h_11 =>
    obtain ⟨⟨literal, rest⟩, hnumber, heq⟩ := Option.map_eq_some_iff.1 h
    have hlength := congrArg List.length (splits_number? hnumber)
    have := List.length_pos_iff.2 (ne_nil_of_number? hnumber)
    grind
  all_goals grind

/-- The tokens of a text, with blanks between them skipped. -/
def tokens? : List Char → Option (List Token)
  | [] => some []
  | c :: cs =>
    if isBlank c then tokens? cs
    else
      match _h : Token.next? (c :: cs) with
      | some (token, rest) => (tokens? rest).map (token :: ·)
      | none => none
termination_by cs => cs.length
decreasing_by
  · exact Nat.lt_succ_self _
  · exact length_rest_lt_of_next? _h

/-! ## Writing -/

/-- A token as it is written. A string that denotes no text is written as half a surrogate
pair. -/
def Token.render : Token → List Char
  | .openBracket => ['[']
  | .closeBracket => [']']
  | .openBrace => ['\x7b']
  | .closeBrace => ['\x7d']
  | .colon => [':']
  | .comma => [',']
  | .null => ['n', 'u', 'l', 'l']
  | .bool true => ['t', 'r', 'u', 'e']
  | .bool false => ['f', 'a', 'l', 's', 'e']
  | .number literal => literal
  | .string (some s) => quoteText s
  | .string none => ['"', '\\', 'u', 'd', '8', '0', '0', '"']

end TagLint.Json
