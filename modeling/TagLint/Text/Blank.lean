import TagLint.Text.Basic

/-!
# Blank characters

The characters with the Unicode property `White_Space`, which is wider than the ASCII
blanks: it adds the next-line control, the no-break space, the typographic spaces and
the line and paragraph separators.
-/

namespace TagLint.Text

/-- The ranges of the property `White_Space`, ends included. -/
def blankRanges : List (Nat × Nat) :=
  [(0x09, 0x0D), (0x20, 0x20), (0x85, 0x85), (0xA0, 0xA0), (0x1680, 0x1680), (0x2000, 0x200A),
    (0x2028, 0x2029), (0x202F, 0x202F), (0x205F, 0x205F), (0x3000, 0x3000)]

/-- Whether a character has the property `White_Space`. -/
def isBlank (c : Char) : Bool :=
  blankRanges.any fun (first, last) => first ≤ c.toNat && c.toNat ≤ last

/-- The text without the blanks at either end. -/
def trimBlanks (cs : List Char) : List Char :=
  dropEndWhile isBlank (cs.dropWhile isBlank)

end TagLint.Text
