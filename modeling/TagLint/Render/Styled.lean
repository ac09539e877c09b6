/-!
# Styled text

What is shown on a terminal is a list of fragments, each plain or in one of three styles.
The same list is written with colours or without: `Fragment.write` either wraps a styled
fragment in escape sequences or leaves its text alone.
-/

namespace TagLint

/-- The styles of terminal text. -/
inductive Style where
  | error
  | help
  | bold
deriving DecidableEq, Repr

/-- The escape sequence that turns a style on. -/
def Style.start : Style → String
  | error => "\x1b[1;31m"
  | help => "\x1b[1;32m"
  | bold => "\x1b[1m"

/-- The escape sequence that returns to plain text. -/
def Style.reset : String := "\x1b[0m"

/-- A piece of text with at most one style. -/
structure Fragment where
  /-- The style, if the text is not plain. -/
  style? : Option Style
  text : String
deriving DecidableEq, Repr

namespace Fragment

/-- Text without a style. -/
def plain (text : String) : Fragment := ⟨none, text⟩

/-- Text in a style. -/
def styled (style : Style) (text : String) : Fragment := ⟨some style, text⟩

/-- A fragment as it is written, with colours or without. -/
def write (colors : Bool) (fragment : Fragment) : String :=
  match fragment.style?, colors with
  | some style, true => style.start ++ fragment.text ++ Style.reset
  | _, _ => fragment.text

/-- A list of fragments as it is written. -/
def writeAll (colors : Bool) (fragments : List Fragment) : String :=
  String.join (fragments.map (write colors))

@[simp] theorem write_plain (colors : Bool) (text : String) :
    (plain text).write colors = text := rfl

@[simp] theorem write_styled_false (style : Style) (text : String) :
    (styled style text).write false = text := rfl

@[simp] theorem writeAll_nil (colors : Bool) : writeAll colors [] = "" := rfl

@[simp] theorem writeAll_cons (colors : Bool) (fragment : Fragment) (fragments : List Fragment) :
    writeAll colors (fragment :: fragments) = fragment.write colors ++ writeAll colors fragments :=
  String.join_cons

@[simp] theorem writeAll_append (colors : Bool) (first second : List Fragment) :
    writeAll colors (first ++ second) = writeAll colors first ++ writeAll colors second := by
  rw [writeAll, List.map_append, String.join_append]
  rfl

theorem writeAll_flatMap {α : Type} (colors : Bool) (items : List α) (part : α → List Fragment) :
    writeAll colors (items.flatMap part) =
      String.join (items.map fun item => writeAll colors (part item)) := by
  induction items with
  | nil => rfl
  | cons item items ih =>
    rw [List.flatMap_cons, writeAll_append, ih, List.map_cons, String.join_cons]

end Fragment

end TagLint
