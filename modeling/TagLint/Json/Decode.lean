import TagLint.Json.Value
import TagLint.Offset

/-!
# Decoding JSON values

Decoders for the kinds of value that documents are made of. A record is an object, or an
array of its fields in order with those at the end left out. In an object the order of
members is free, a field may be given once, and members that are no fields are skipped; a
key must denote a text even if nobody asks for it.
-/

namespace TagLint.Json

/-- The text of a string. -/
def text? : Json → Option String
  | .string text? => text?
  | _ => none

/-- An offset: a number written with digits alone and within the limit. -/
def offset? : Json → Option Offset
  | .number literal => (Text.numeral? 10 literal).filter (· ≤ Offset.limit)
  | _ => none

/-- An array of values of one kind. -/
def list? {α : Type} (decode : Json → Option α) : Json → Option (List α)
  | .array items => items.mapM decode
  | _ => none

/-- A value that may be `null`. -/
def nullable? {α : Type} (decode : Json → Option α) : Json → Option (Option α)
  | .null => some none
  | value => (decode value).map some

/-- The value of a member that occurs at most once: `some none` if it does not occur. -/
def member? (members : List (String × Json)) (name : String) : Option (Option Json) :=
  match members.filter (·.1 == name) with
  | [] => some none
  | [(_, value)] => some (some value)
  | _ => none

/-- The members of an object, if every key denotes a text. -/
def namedMembers? (members : List (Option String × Json)) : Option (List (String × Json)) :=
  members.mapM fun (key, value) => key.map fun name => (name, value)

/-- The values of the named fields of a record, `none` for a field that is left out. -/
def fields? (names : List String) : Json → Option (List (Option Json))
  | .array items =>
    if items.length ≤ names.length then
      some (items.map some ++ List.replicate (names.length - items.length) none)
    else none
  | .object members => do
    let members ← namedMembers? members
    names.mapM (member? members)
  | _ => none

/-- A field that must be given. -/
def required? {α : Type} (decode : Json → Option α) (field : Option Json) : Option α :=
  field.bind decode

/-- A field that has a default. -/
def defaulting? {α : Type} (default : α) (decode : Json → Option α) : Option Json → Option α
  | some value => decode value
  | none => some default

end TagLint.Json
