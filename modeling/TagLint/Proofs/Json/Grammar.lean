import TagLint.Json.Basic
import TagLint.Text.Numeral

/-!
# The grammar of JSON

RFC 8259 as a relation between values and texts, without any reader in mind: blanks, numbers and
strings character by character, and one production for each way to write a value.

A value has many spellings. Blanks stand around every value and every key, a character of a
string stands for itself or is escaped by name or by code, and a character past U+FFFF has a code
made of two. The order of members is part of the value, as are repeated members.

Only strings that denote a text are spelled here. The grammar of RFC 8259 has others, with half
of a surrogate pair in them.
-/

namespace TagLint.Json

/-! ## Blanks and numbers -/

/-- Nothing but spaces, tabs, newlines and carriage returns. -/
def Blanks (cs : List Char) : Prop := ∀ c ∈ cs, c ∈ [' ', '\t', '\n', '\r']

/-- One or more digits. -/
def IsDigits (cs : List Char) : Prop := cs ≠ [] ∧ ∀ c ∈ cs, Text.isDigit c = true

/-- A zero, or digits that do not start with one. -/
inductive IsInteger : List Char → Prop
  | zero : IsInteger ['0']
  | digits {cs : List Char} : IsDigits cs → cs.head? ≠ some '0' → IsInteger cs

/-- The digits after a point, if there is one. -/
inductive IsFraction : List Char → Prop
  | absent : IsFraction []
  | present {cs : List Char} : IsDigits cs → IsFraction ('.' :: cs)

/-- A power of ten, if there is one. -/
inductive IsExponent : List Char → Prop
  | absent : IsExponent []
  | present {e : Char} {sign cs : List Char} : e ∈ ['e', 'E'] → sign ∈ [[], ['+'], ['-']] →
      IsDigits cs → IsExponent (e :: (sign ++ cs))

/-- A number. -/
inductive IsNumber : List Char → Prop
  | parts {sign integer fraction exponent : List Char} : sign ∈ [[], ['-']] →
      IsInteger integer → IsFraction fraction → IsExponent exponent →
      IsNumber (sign ++ (integer ++ (fraction ++ exponent)))

/-! ## Strings -/

/-- The characters that can be escaped by a letter, each after its letter. -/
def namedEscapes : List (Char × Char) :=
  [('"', '"'), ('\\', '\\'), ('/', '/'), ('b', '\x08'), ('f', '\x0c'), ('n', '\n'), ('r', '\r'),
    ('t', '\t')]

/-- A code of sixteen bits after a backslash. -/
inductive IsCode (bits : Nat) : List Char → Prop
  | digits {a b c d : Char} : Text.numeral? 16 [a, b, c, d] = some bits →
      IsCode bits ['\\', 'u', a, b, c, d]

/-- A character of a string as it may be written. -/
inductive IsChar (c : Char) : List Char → Prop
  | raw : 0x20 ≤ c.toNat → c ≠ '"' → c ≠ '\\' → IsChar c [c]
  | named {letter : Char} : (letter, c) ∈ namedEscapes → IsChar c ['\\', letter]
  | code {cs : List Char} : c.toNat < 0x10000 → IsCode c.toNat cs → IsChar c cs
  | pair {high low : List Char} : 0x10000 ≤ c.toNat →
      IsCode (0xD800 + (c.toNat - 0x10000) / 0x400) high →
      IsCode (0xDC00 + (c.toNat - 0x10000) % 0x400) low → IsChar c (high ++ low)

/-- The characters of a string, one after the other. -/
inductive IsChars : List Char → List Char → Prop
  | nil : IsChars [] []
  | cons {c : Char} {cs written later : List Char} : IsChar c written → IsChars cs later →
      IsChars (c :: cs) (written ++ later)

/-- A string between its quotes. -/
inductive IsString (s : String) : List Char → Prop
  | quoted {written : List Char} : IsChars s.toList written → IsString s ('"' :: (written ++ ['"']))

/-! ## Values -/

/-- Members whose keys are texts, as members of an object. -/
def named (members : List (String × Json)) : List (Option String × Json) :=
  members.map fun (key, v) => (some key, v)

theorem named_cons (member : String × Json) (members : List (String × Json)) :
    named (member :: members) = (some member.1, member.2) :: named members := rfl

theorem record_eq (members : List (String × Json)) : record members = .object (named members) := rfl

/-- What a part of a text may be, apart from numbers and strings. -/
inductive Phrase where
  | value (v : Json)
  /-- A value with blanks around it. -/
  | element (v : Json)
  /-- One or more elements with commas between them. -/
  | elements (vs : List Json)
  | member (key : String) (v : Json)
  /-- One or more members with commas between them. -/
  | members (ms : List (String × Json))

/-- The texts that spell a phrase. -/
inductive Spells : Phrase → List Char → Prop
  | null : Spells (.value .null) ['n', 'u', 'l', 'l']
  | true : Spells (.value (.bool true)) ['t', 'r', 'u', 'e']
  | false : Spells (.value (.bool false)) ['f', 'a', 'l', 's', 'e']
  | number {literal : List Char} : IsNumber literal → Spells (.value (.number literal)) literal
  | string {s : String} {cs : List Char} : IsString s cs → Spells (.value (text s)) cs
  | emptyArray {blanks : List Char} : Blanks blanks →
      Spells (.value (.array [])) ('[' :: (blanks ++ [']']))
  | array {vs : List Json} {cs : List Char} : Spells (.elements vs) cs →
      Spells (.value (.array vs)) ('[' :: (cs ++ [']']))
  | emptyObject {blanks : List Char} : Blanks blanks →
      Spells (.value (record [])) ('\x7b' :: (blanks ++ ['\x7d']))
  | object {ms : List (String × Json)} {cs : List Char} : Spells (.members ms) cs →
      Spells (.value (record ms)) ('\x7b' :: (cs ++ ['\x7d']))
  | element {v : Json} {before cs after : List Char} : Blanks before → Spells (.value v) cs →
      Blanks after → Spells (.element v) (before ++ (cs ++ after))
  | lastElement {v : Json} {cs : List Char} : Spells (.element v) cs → Spells (.elements [v]) cs
  | elements {v : Json} {vs : List Json} {cs later : List Char} : Spells (.element v) cs →
      Spells (.elements vs) later → Spells (.elements (v :: vs)) (cs ++ ',' :: later)
  | member {key : String} {v : Json} {before name after cs : List Char} : Blanks before →
      IsString key name → Blanks after → Spells (.element v) cs →
      Spells (.member key v) (before ++ (name ++ (after ++ ':' :: cs)))
  | lastMember {key : String} {v : Json} {cs : List Char} : Spells (.member key v) cs →
      Spells (.members [(key, v)]) cs
  | members {key : String} {v : Json} {ms : List (String × Json)} {cs later : List Char} :
      Spells (.member key v) cs → Spells (.members ms) later →
      Spells (.members ((key, v) :: ms)) (cs ++ ',' :: later)

/-- The texts of a value. -/
def IsText (v : Json) (text : List Char) : Prop := Spells (.element v) text

end TagLint.Json
