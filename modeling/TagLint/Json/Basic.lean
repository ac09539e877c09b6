/-!
# JSON values

The values of RFC 8259. Two choices follow from what the grammar allows. A number is kept
as it is written, since the grammar sets no limit on its size or precision. A string may
hold an escaped half of a surrogate pair and then denotes no text; such a string is `none`,
so that it can be skipped where nobody asks for its text and refused where somebody does.
Members of an object stay in their order, repetitions included.
-/

namespace TagLint

/-- A JSON value. -/
inductive Json where
  | null
  | bool (value : Bool)
  /-- A number as it is written. -/
  | number (literal : List Char)
  /-- A string; `none` if an unpaired surrogate keeps it from denoting a text. -/
  | string (text? : Option String)
  | array (items : List Json)
  | object (members : List (Option String × Json))

namespace Json

/-- A string that denotes a text. -/
def text (s : String) : Json := .string (some s)

/-- A natural number in base ten. -/
def nat (n : Nat) : Json := .number (Nat.toDigits 10 n)

/-- An object whose keys are texts. -/
def record (members : List (String × Json)) : Json :=
  .object (members.map fun (key, value) => (some key, value))

/-- An array of texts. -/
def texts (items : List String) : Json := .array (items.map text)

end Json

end TagLint
