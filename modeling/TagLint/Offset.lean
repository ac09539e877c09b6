/-!
# Byte offsets

Every position in this library is a UTF-8 byte offset. Inside a tag a position is an
exact natural number; a *reported* position is kept within 32 bits, and arithmetic on
reported positions saturates at `Offset.limit` instead of wrapping, so an offset past
the limit is never confused with one near the start of the file.

A scanner may keep the positions inside a tag within 32 bits as well. On tags of at most
`limit` bytes that makes no difference. On longer ones its positions stand still at the limit
where those here go on, so that a theorem on tags of any length says nothing of it there.
-/

namespace TagLint

/-- A position in a text, counted in UTF-8 bytes. -/
abbrev Offset := Nat

namespace Offset

/-- The largest position that can be reported. -/
def limit : Nat := 0xFFFFFFFF

/-- The nearest position that can be reported. -/
def clamp (n : Nat) : Offset := min n limit

/-- The position `distance` bytes after `base`, saturating at `limit`. -/
def shift (base distance : Offset) : Offset := clamp (base + distance)

theorem clamp_of_le {n : Nat} (h : n ≤ limit) : clamp n = n := Nat.min_eq_left h

theorem clamp_le (n : Nat) : clamp n ≤ n := Nat.min_le_left n limit

theorem clamp_le_limit (n : Nat) : clamp n ≤ limit := Nat.min_le_right n limit

theorem clamp_mono {m n : Nat} (h : m ≤ n) : clamp m ≤ clamp n :=
  Nat.le_min.2 ⟨Nat.le_trans (Nat.min_le_left m limit) h, Nat.min_le_right m limit⟩

theorem clamp_lt_clamp {m n : Nat} (h : m < n) (hm : m < limit) : clamp m < clamp n :=
  Nat.lt_of_le_of_lt (clamp_le m) (Nat.lt_min.2 ⟨h, hm⟩)

/-- Below the limit, shifting is addition. -/
theorem shift_of_le {base distance : Nat} (h : base + distance ≤ limit) :
    shift base distance = base + distance := clamp_of_le h

theorem shift_le (base distance : Nat) : shift base distance ≤ base + distance := clamp_le _

theorem shift_le_limit (base distance : Nat) : shift base distance ≤ limit := clamp_le_limit _

end Offset

end TagLint
