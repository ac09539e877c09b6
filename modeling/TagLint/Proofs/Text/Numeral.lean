import Mathlib.Data.Nat.Digits.Lemmas
import Mathlib.Tactic.Ring
import TagLint.Text.Numeral

/-!
# What numerals stand for

A numeral is read from left to right, one digit onto the value of those before it. What it
stands for is said without that order of work: every digit has a value (`IsDigitOf`), and a
sequence of digits stands for the number with those digits in its base (`IsNumeral`). Reading
gives exactly that (`numeral?_eq_some_iff`), and as the value of a numeral is bounded by its
length, so is every value on the way (`IsNumeral.lt_pow`).
-/

namespace TagLint.Text

/-- The character is the digit for a value in a base up to sixteen. A letter may be of either
case. -/
def IsDigitOf (base : Nat) (c : Char) (value : Nat) : Prop :=
  value < base ∧ (c = value.digitChar ∨ c = value.digitChar.toUpper)

/-- The digits spell a number in a base, the most significant digit first. -/
def IsNumeral (base : Nat) (digits : List Char) (value : Nat) : Prop :=
  ∃ values, List.Forall₂ (IsDigitOf base) digits.reverse values ∧ Nat.ofDigits base values = value

variable {base : Nat} {c : Char} {digits : List Char} {value : Nat}

/-! ## Digits -/

theorem isDigitOf_of_digit? (h : digit? base c = some value) : IsDigitOf base c value := by
  have hdecimal : ∀ n < 10, Char.ofNat ('0'.toNat + n) = n.digitChar := by decide
  have hlower : ∀ n < 6, Char.ofNat ('a'.toNat + n) = (n + 10).digitChar := by decide
  have hupper : ∀ n < 6, Char.ofNat ('A'.toNat + n) = (n + 10).digitChar.toUpper := by decide
  have hchar {first : Char} (h : first.toNat ≤ c.toNat) :
      c = Char.ofNat (first.toNat + (c.toNat - first.toNat)) := by
    rw [Nat.add_sub_cancel' h, Char.ofNat_toNat]
  have hvalue {n : Nat} (h : (if n < base then some n else none) = some value) :
      n < base ∧ value = n := by
    split at h
    · next hn => exact ⟨hn, (Option.some.inj h).symm⟩
    · cases h
  unfold digit? at h
  dsimp only at h
  split at h
  · next hrange =>
    have hhigh : c.toNat ≤ '0'.toNat + 9 := hrange.2
    obtain ⟨hlt, rfl⟩ := hvalue h
    exact ⟨hlt, .inl ((hchar hrange.1).trans (hdecimal _ (by omega)))⟩
  · split at h
    · next hrange =>
      have hhigh : c.toNat ≤ 'a'.toNat + 5 := hrange.2
      obtain ⟨hlt, rfl⟩ := hvalue h
      exact ⟨hlt, .inl ((hchar hrange.1).trans (hlower _ (by omega)))⟩
    · split at h
      · next hrange =>
        have hhigh : c.toNat ≤ 'A'.toNat + 5 := hrange.2
        obtain ⟨hlt, rfl⟩ := hvalue h
        exact ⟨hlt, .inr ((hchar hrange.1).trans (hupper _ (by omega)))⟩
      · simp at h

/-- Reading a character as a digit finds its value. -/
theorem digit?_eq_some_iff (hbase : base ≤ 16) :
    digit? base c = some value ↔ IsDigitOf base c value := by
  refine ⟨isDigitOf_of_digit?, ?_⟩
  have hread : ∀ base ≤ 16, ∀ value < base, digit? base value.digitChar = some value ∧
      digit? base value.digitChar.toUpper = some value := by
    decide +kernel
  rintro ⟨hvalue, rfl | rfl⟩
  · exact (hread base hbase value hvalue).1
  · exact (hread base hbase value hvalue).2

/-! ## Numerals -/

theorem numeral?_concat (base : Nat) (digits : List Char) (c : Char) :
    numeral? base (digits ++ [c]) =
      (numeral? base digits).bind fun high => (digit? base c).map (high * base + ·) := by
  rw [numeral?, List.foldlM_append]
  simp [numeral?, bind, pure]

theorem isNumeral_concat :
    IsNumeral base (digits ++ [c]) value ↔ ∃ high low, IsNumeral base digits high ∧
      IsDigitOf base c low ∧ high * base + low = value := by
  simp only [IsNumeral, List.reverse_append, List.reverse_singleton, List.singleton_append]
  constructor
  · rintro ⟨values, hvalues, rfl⟩
    cases hvalues with
    | @cons _ low _ values hlow hvalues =>
      refine ⟨Nat.ofDigits base values, low, ⟨values, hvalues, rfl⟩, hlow, ?_⟩
      rw [Nat.ofDigits_cons, Nat.mul_comm, Nat.add_comm]
  · rintro ⟨high, low, ⟨values, hvalues, rfl⟩, hlow, rfl⟩
    refine ⟨low :: values, .cons hlow hvalues, ?_⟩
    rw [Nat.ofDigits_cons, Nat.mul_comm, Nat.add_comm]

/-- The leading digit can be read apart from the others. -/
theorem numeral?_cons {high low : Nat} (hhigh : digit? base c = some high)
    (hlow : numeral? base digits = some low) :
    numeral? base (c :: digits) = some (high * base ^ digits.length + low) := by
  induction digits using List.reverseRecOn generalizing low with
  | nil =>
    obtain rfl : 0 = low := Option.some.inj hlow
    simp [numeral?, hhigh]
  | append_singleton digits last ih =>
    obtain ⟨middle, hmiddle, hlast⟩ := Option.bind_eq_some_iff.1 (numeral?_concat .. ▸ hlow)
    obtain ⟨digit, hdigit, rfl⟩ := Option.map_eq_some_iff.1 hlast
    rw [← List.cons_append, numeral?_concat, ih hmiddle]
    simp only [Option.bind_some, hdigit, Option.map_some, List.length_append,
      List.length_singleton, Nat.pow_succ]
    congr 1
    ring

/-- Reading a sequence of digits finds what it spells. -/
theorem numeral?_eq_some_iff (hbase : base ≤ 16) :
    numeral? base digits = some value ↔ IsNumeral base digits value := by
  induction digits using List.reverseRecOn generalizing value with
  | nil => simp [numeral?, IsNumeral, eq_comm]
  | append_singleton digits c ih =>
    simp only [numeral?_concat, isNumeral_concat, Option.bind_eq_some_iff, Option.map_eq_some_iff,
      ih, digit?_eq_some_iff hbase]
    constructor
    · rintro ⟨high, hhigh, low, hlow, rfl⟩
      exact ⟨high, low, hhigh, hlow, rfl⟩
    · rintro ⟨high, low, hhigh, hlow, rfl⟩
      exact ⟨high, hhigh, low, hlow, rfl⟩

theorem IsNumeral.isDigitOf_of_mem (h : IsNumeral base digits value) :
    ∀ c ∈ digits, ∃ value, IsDigitOf base c value := by
  induction digits using List.reverseRecOn generalizing value with
  | nil => simp
  | append_singleton digits last ih =>
    obtain ⟨high, low, hhigh, hlow, rfl⟩ := isNumeral_concat.1 h
    intro c hc
    rcases List.mem_append.1 hc with hc | hc
    · exact ih hhigh c hc
    · exact ⟨low, List.mem_singleton.1 hc ▸ hlow⟩

/-- A numeral is no larger than its length allows. -/
theorem IsNumeral.lt_pow (h : IsNumeral base digits value) : value < base ^ digits.length := by
  induction digits using List.reverseRecOn generalizing value with
  | nil =>
    obtain ⟨values, hvalues, rfl⟩ := h
    cases hvalues
    exact Nat.one_pos
  | append_singleton digits c ih =>
    obtain ⟨high, low, hhigh, hlow, rfl⟩ := isNumeral_concat.1 h
    rw [List.length_append, List.length_singleton, Nat.pow_succ]
    have hbound := Nat.mul_le_mul_right base (Nat.succ_le_of_lt (ih hhigh))
    have hdigit := hlow.1
    rw [Nat.succ_mul] at hbound
    omega

end TagLint.Text
