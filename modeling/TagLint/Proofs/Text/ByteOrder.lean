import TagLint.Proofs.Text.Cut

/-!
# The order of texts in bytes

Texts are compared character by character, their encodings byte by byte. The two orders are
one (`utf8_lt_iff`): a greater character has an encoding that is already greater where
the two first differ (`utf8EncodeChar_append_lt`), since a longer encoding begins with a
greater byte.
-/

namespace TagLint

namespace Text

/-- Of two characters the smaller has the smaller encoding, whatever follows either. -/
theorem utf8EncodeChar_append_lt {c d : Char} (h : c < d) (cs ds : List UInt8) :
    String.utf8EncodeChar c ++ cs < String.utf8EncodeChar d ++ ds := by
  have hlt : c.val.toNat < d.val.toNat := UInt32.lt_iff_toNat_lt.1 h
  have hvalid : d.val.toNat.isValidChar := d.valid
  have hd : d.val.toNat < 0x110000 := by
    rcases hvalid with hsmall | ⟨-, hsmall⟩ <;> omega
  -- With its digits taken off one at a time, a value is known to `omega` from the bytes.
  have hsecond (n : Nat) : n / 4096 = n / 64 / 64 := by omega
  have hthird (n : Nat) : n / 262144 = n / 64 / 64 / 64 := by omega
  simp only [String.utf8EncodeChar, hsecond, hthird]
  generalize c.val.toNat = v at *
  generalize d.val.toNat = w at *
  repeat' split
  all_goals
    simp only [List.cons_append, List.nil_append, List.cons_lt_cons_iff, UInt8.lt_iff_toNat_lt,
      ← UInt8.toNat_inj, UInt8.toNat_ofNat']
    omega

theorem utf8_lt_utf8 {cs ds : List Char} (h : cs < ds) : utf8 cs < utf8 ds := by
  induction cs generalizing ds with
  | nil =>
    cases ds with
    | nil => exact absurd h (List.lt_irrefl [])
    | cons d ds =>
      have hne : String.utf8EncodeChar d ≠ [] := String.utf8EncodeChar_ne_nil
      obtain ⟨byte, bytes, hbytes⟩ := List.exists_cons_of_ne_nil hne
      rw [utf8_nil, utf8_cons, hbytes]
      exact List.nil_lt_cons byte _
  | cons c cs ih =>
    cases ds with
    | nil => exact absurd h (List.not_lt_nil _)
    | cons d ds =>
      rw [utf8_cons, utf8_cons]
      rcases List.cons_lt_cons_iff.1 h with hchar | ⟨rfl, hrest⟩
      · exact utf8EncodeChar_append_lt hchar _ _
      · exact List.append_left_lt (ih hrest)

/-- Texts are in the order of their bytes. -/
theorem utf8_lt_iff {first second : String} :
    utf8 first.toList < utf8 second.toList ↔ first < second := by
  constructor
  · intro h
    refine Decidable.byContradiction fun hnot => ?_
    rcases Std.le_iff_lt_or_eq.1 (String.not_lt.1 hnot) with hlt | rfl
    · exact List.lt_asymm h (utf8_lt_utf8 (String.lt_iff.1 hlt))
    · exact List.lt_irrefl _ h
  · intro h
    exact utf8_lt_utf8 (String.lt_iff.1 h)

end Text

end TagLint
