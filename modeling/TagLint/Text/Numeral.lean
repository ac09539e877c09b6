/-!
# Numerals

Numbers written with digits in a base up to sixteen, the letters `a` to `f` of either case
standing for ten and more.
-/

namespace TagLint.Text

/-- The value of a digit in a base, if the character is a digit in it. -/
def digit? (base : Nat) (c : Char) : Option Nat :=
  let value :=
    if '0' ≤ c ∧ c ≤ '9' then c.toNat - '0'.toNat
    else if 'a' ≤ c ∧ c ≤ 'f' then c.toNat - 'a'.toNat + 10
    else if 'A' ≤ c ∧ c ≤ 'F' then c.toNat - 'A'.toNat + 10
    else base
  if value < base then some value else none

/-- The value of a sequence of digits, most significant first. -/
def numeral? (base : Nat) (digits : List Char) : Option Nat :=
  digits.foldlM (fun value c => (digit? base c).map (value * base + ·)) 0

/-- Whether a character is a digit in base ten. -/
def isDigit (c : Char) : Bool := '0' ≤ c && c ≤ '9'

end TagLint.Text
