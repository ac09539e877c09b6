/-!
# Decoding bytes that may not be UTF-8

`decodeLossy` reads bytes as UTF-8 and never fails: each maximal run of bytes that begins
a well-formed sequence but does not complete it, and each byte that cannot begin one,
becomes one replacement character U+FFFD. The table `lead?` is the table of well-formed
sequences of the Unicode standard: the first byte fixes how many bytes follow and the
range of the first of them.
-/

namespace TagLint.Text

/-- What a first byte announces: how many bytes follow, the range of the first of them,
and the bits the first byte itself contributes. -/
structure Lead where
  /-- How many continuation bytes follow. -/
  tail : Nat
  /-- The least value of the first continuation byte. -/
  low : Nat
  /-- The greatest value of the first continuation byte. -/
  high : Nat
  /-- The bits of the character that the first byte carries. -/
  bits : Nat
deriving DecidableEq, Repr

/-- The well-formed sequence that a byte begins; `none` for a byte that begins none. -/
def lead? (b : Nat) : Option Lead :=
  if b < 0x80 then some ⟨0, 0x80, 0xBF, b⟩
  else if b < 0xC2 then none
  else if b < 0xE0 then some ⟨1, 0x80, 0xBF, b - 0xC0⟩
  else if b = 0xE0 then some ⟨2, 0xA0, 0xBF, 0⟩
  else if b = 0xED then some ⟨2, 0x80, 0x9F, 0xD⟩
  else if b < 0xF0 then some ⟨2, 0x80, 0xBF, b - 0xE0⟩
  else if b = 0xF0 then some ⟨3, 0x90, 0xBF, 0⟩
  else if b < 0xF4 then some ⟨3, 0x80, 0xBF, b - 0xF0⟩
  else if b = 0xF4 then some ⟨3, 0x80, 0x8F, 4⟩
  else none

/-- Reads `count` continuation bytes, the first between `low` and `high`, onto the bits
`acc`. Gives the number read, or `none` at the first byte that does not fit, and the bytes
not consumed. -/
def continuation : (count low high acc : Nat) → List UInt8 → Option Nat × List UInt8
  | 0, _, _, acc, bytes => (some acc, bytes)
  | _ + 1, _, _, _, [] => (none, [])
  | count + 1, low, high, acc, b :: bytes =>
    if low ≤ b.toNat ∧ b.toNat ≤ high then
      continuation count 0x80 0xBF (acc * 64 + b.toNat % 64) bytes
    else (none, b :: bytes)

theorem length_continuation_le (count low high acc : Nat) (bytes : List UInt8) :
    (continuation count low high acc bytes).2.length ≤ bytes.length := by
  fun_induction continuation with
  | case1 => exact Nat.le_refl _
  | case2 => exact Nat.le_refl _
  | case3 _ _ _ _ _ _ _ ih => exact Nat.le_succ_of_le ih
  | case4 => exact Nat.le_refl _

/-- The replacement character. -/
def replacement : Char := '\uFFFD'

/-- The first character of a non-empty sequence of bytes, and the bytes after it. -/
def decodeFirst (b : UInt8) (bytes : List UInt8) : Char × List UInt8 :=
  match lead? b.toNat with
  | none => (replacement, bytes)
  | some lead =>
    match continuation lead.tail lead.low lead.high lead.bits bytes with
    | (some code, rest) => (Char.ofNat code, rest)
    | (none, rest) => (replacement, rest)

theorem length_decodeFirst_le (b : UInt8) (bytes : List UInt8) :
    (decodeFirst b bytes).2.length ≤ bytes.length := by
  unfold decodeFirst
  split
  · exact Nat.le_refl _
  · rename_i lead _
    have h := length_continuation_le lead.tail lead.low lead.high lead.bits bytes
    split <;> rename_i heq <;> simpa [heq] using h

/-- The characters of a sequence of bytes, with U+FFFD for what is not UTF-8. -/
def decodeLossy : List UInt8 → List Char
  | [] => []
  | b :: bytes => (decodeFirst b bytes).1 :: decodeLossy (decodeFirst b bytes).2
termination_by bytes => bytes.length
decreasing_by exact Nat.lt_succ_of_le (length_decodeFirst_le b bytes)

end TagLint.Text
