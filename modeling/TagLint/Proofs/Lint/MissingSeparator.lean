import TagLint.Proofs.Lint.Origins
import TagLint.Proofs.Literal.Verbatim
import TagLint.Proofs.Tag.OpeningQuotes

/-!
# Where a missing separator is reported

The problem is reported one byte before the value. What stands in the literal between the key and
the value is the quote that opens the value, and any control characters that the scanner skips
before the value begins (`exists_gap_of_mem_problems`). So the report marks the opening quote if
the quote is a character of its own with the value right behind it, and a byte further on in all
other cases: the quote may be an escape sequence, a raw literal may have carriage returns between
the quote and the value, and control characters may stand there (`missingSeparator_offset`).
-/

namespace TagLint

/-- The parts of a literal around a missing separator: the gap between the key and the value of an
entry, and the byte that is reported. -/
structure TagLiteral.MarksGap (literal : TagLiteral) (raw : RawEntry) (offset : Offset)
    (gap : List Char) : Prop where
  /-- The value is opened by a quote, which stands where the key ends. -/
  opens : OpensAt literal.content raw.key.stop raw.value.start
  /-- The gap is what is written from the quote up to the value, -/
  spells : (⟨(Literal.prepare literal.text.toList).literalOffset raw.key.stop,
    (Literal.prepare literal.text.toList).literalOffset raw.value.start⟩ :
      Span).Spells literal.text.toList gap
  /-- and means the quote and control characters. -/
  means : ∃ controls, (∀ c ∈ controls, Text.isControl c = true) ∧
    Literal.decode? literal.text.toList gap = some ('"' :: controls)
  /-- The byte is the last of the gap. -/
  last : offset + 1 =
    literal.offset + (Literal.prepare literal.text.toList).literalOffset raw.value.start

namespace TagLiteral.MarksGap

variable {literal : TagLiteral} {raw : RawEntry} {offset : Offset} {gap : List Char}

/-- The gap begins where the quote is written. -/
theorem start_add (h : literal.MarksGap raw offset gap) :
    literal.offset + (Literal.prepare literal.text.toList).literalOffset raw.key.stop +
      Text.byteLength gap = offset + 1 := by
  rw [h.last, Nat.add_assoc, h.spells.start_add]

/-- The reported byte never stands before the quote. -/
theorem quote_le (h : literal.MarksGap raw offset gap) :
    literal.offset + (Literal.prepare literal.text.toList).literalOffset raw.key.stop ≤ offset := by
  obtain ⟨controls, -, hdecode⟩ := h.means
  have hpos := Literal.byteLength_pos_of_decode? hdecode
  have hstart := h.start_add
  lia

/-- It is where the quote stands if and only if a plain quote is all there is. -/
theorem eq_quote_iff (h : literal.MarksGap raw offset gap) :
    offset = literal.offset + (Literal.prepare literal.text.toList).literalOffset raw.key.stop ↔
      gap = ['"'] := by
  have hstart := h.start_add
  have hquote : Text.byteLength ['"'] = 1 := rfl
  constructor
  · intro hoffset
    obtain ⟨controls, -, hdecode⟩ := h.means
    have hsize : Text.byteLength ('"' :: controls) = 1 + Text.byteLength controls := rfl
    -- One byte is too short for an escape sequence, and for a quote with more behind it.
    obtain rfl := Literal.eq_of_decode? hdecode (by lia)
    have hnone : controls = [] := Text.eq_nil_of_byteLength_eq_zero (by lia)
    rw [hnone]
  · rintro rfl
    lia

end TagLiteral.MarksGap

/-- A missing separator belongs to an entry whose value is opened by a quote where its key ends, and
is reported at the last byte before the value. -/
theorem TagLiteral.exists_gap_of_mem_problems {literal : TagLiteral} {allowed : AllowList}
    {raw : RawEntry} {offset : Offset}
    (hfits : literal.offset + literal.text.utf8ByteSize ≤ Offset.limit)
    (hlossless : Literal.Lossless literal.text.toList) (hraw : raw ∈ rawEntries literal.content)
    (h : ⟨.missingSeparator, offset⟩ ∈
      (Entry.ofRaw literal.content literal.toSource raw).problems allowed) :
    ∃ gap, literal.MarksGap raw offset gap := by
  obtain ⟨hvalue, hseparated, hoffset⟩ := Entry.value_of_mem_problems h
  have hopens := opensAt_of_mem_rawEntries hraw hseparated hvalue
  obtain ⟨controls, hcontrols, hspells⟩ := hopens.spells
  rw [← Text.byteLength_toList] at hfits
  obtain ⟨gap, hgap, hdecode⟩ := Literal.exists_spells_of_prepare hlossless
    (Nat.le_trans (Nat.le_add_left _ _) hfits) hspells
  refine ⟨gap, hopens, hgap, ⟨controls, hcontrols, hdecode⟩, ?_⟩
  have hplace : literal.toSource raw.value.start =
      literal.offset + (Literal.prepare literal.text.toList).literalOffset raw.value.start :=
    Offset.shift_of_le (Nat.le_trans (Nat.add_le_add_left hgap.stop_le _) hfits)
  -- The gap is before the value, so a byte can be taken off the offset of the value.
  have hpos := Literal.byteLength_pos_of_decode? hdecode
  have hstop := hgap.start_add
  rw [← hplace, ← hoffset]
  show literal.toSource raw.value.start - 1 + 1 = literal.toSource raw.value.start
  lia

/-- **Missing separators.** -/
theorem missingSeparator_offset {literal : TagLiteral} {allowed : AllowList} {offset : Offset}
    (hfits : literal.offset + literal.text.utf8ByteSize ≤ Offset.limit)
    (hlossless : Literal.Lossless literal.text.toList)
    (h : ⟨.missingSeparator, offset⟩ ∈ literal.check allowed) :
    ∃ raw ∈ rawEntries literal.content,
      ⟨.missingSeparator, offset⟩ ∈
        (Entry.ofRaw literal.content literal.toSource raw).problems allowed ∧
      ∃ gap, literal.MarksGap raw offset gap ∧
        literal.offset + (Literal.prepare literal.text.toList).literalOffset raw.key.stop ≤
          offset ∧
        (offset =
          literal.offset + (Literal.prepare literal.text.toList).literalOffset raw.key.stop ↔
            gap = ['"']) := by
  obtain ⟨raw, hraw, hproblem⟩ := TagLiteral.exists_raw_of_mem_check h (by simp) (by simp)
  obtain ⟨gap, hgap⟩ := TagLiteral.exists_gap_of_mem_problems hfits hlossless hraw hproblem
  exact ⟨raw, hraw, hproblem, gap, hgap, hgap.quote_le, hgap.eq_quote_iff⟩

/-- Two pairs without a colon. The quote of the second is followed by a tab. -/
def gappedQuotes : TagLiteral := ⟨"`json\"id\" xml\"\ty\"`", 10⟩

/-- The first quote is reported at 15, where it stands, and the second at 24, one byte further. -/
theorem missingSeparator_offset_gappedQuotes :
    10 + gappedQuotes.text.utf8ByteSize ≤ Offset.limit ∧
      Literal.Lossless gappedQuotes.text.toList ∧
      gappedQuotes.check .empty =
        [⟨.invalidKeyChar, 24⟩, ⟨.unknownKey "json", 11⟩, ⟨.missingSeparator, 15⟩,
          ⟨.unknownKey "xml", 20⟩, ⟨.missingSeparator, 24⟩] ∧
      (∃ raw ∈ rawEntries gappedQuotes.content, ∃ gap, gappedQuotes.MarksGap raw 15 gap ∧
        (15 = 10 + (Literal.prepare gappedQuotes.text.toList).literalOffset raw.key.stop ↔
          gap = ['"'])) ∧
      ∃ raw ∈ rawEntries gappedQuotes.content, ∃ gap, gappedQuotes.MarksGap raw 24 gap ∧
        (24 = 10 + (Literal.prepare gappedQuotes.text.toList).literalOffset raw.key.stop ↔
          gap = ['"']) := by
  have hlossless : Literal.Lossless gappedQuotes.text.toList := by
    unfold Literal.Lossless
    decide +kernel
  have hcheck : gappedQuotes.check .empty =
      [⟨.invalidKeyChar, 24⟩, ⟨.unknownKey "json", 11⟩, ⟨.missingSeparator, 15⟩,
        ⟨.unknownKey "xml", 20⟩, ⟨.missingSeparator, 24⟩] := by
    decide +kernel
  obtain ⟨first, hfirst, -, gap, hgap, -, hquote⟩ :=
    @missingSeparator_offset gappedQuotes .empty 15 (by decide) hlossless (by simp [hcheck])
  obtain ⟨second, hsecond, -, gap', hgap', -, hquote'⟩ :=
    @missingSeparator_offset gappedQuotes .empty 24 (by decide) hlossless (by simp [hcheck])
  exact ⟨by decide, hlossless, hcheck, ⟨first, hfirst, gap, hgap, hquote⟩,
    ⟨second, hsecond, gap', hgap', hquote'⟩⟩

/-- With a tab between the quote and the value, the quote is not the last byte before the value. -/
theorem not_forall_missingSeparator_offset :
    ¬ ∀ (literal : TagLiteral) (allowed : AllowList) (offset quote : Offset),
      literal.offset + literal.text.utf8ByteSize ≤ Offset.limit →
      (Literal.unquote literal.text.toList).isOk →
      Literal.Lossless literal.text.toList →
      ⟨.missingSeparator, offset⟩ ∈ literal.check allowed →
      ∀ raw ∈ rawEntries literal.content,
        ⟨.missingSeparator, offset⟩ ∈
          (Entry.ofRaw literal.content literal.toSource raw).problems allowed →
        OpensAt literal.content quote raw.value.start →
        offset = literal.offset + (Literal.prepare literal.text.toList).literalOffset quote := by
  intro h
  have hlossless : Literal.Lossless "`json\"\tid\"`".toList := by
    unfold Literal.Lossless
    decide +kernel
  have hopens : OpensAt (⟨"`json\"\tid\"`", 0⟩ : TagLiteral).content 4 6 :=
    ⟨"json".toList, ['\t'], "id\"".toList, by decide +kernel, rfl, rfl,
      List.forall_mem_singleton.2 rfl⟩
  have hquote := h ⟨"`json\"\tid\"`", 0⟩ (.ofValues ["json"]) 6 4 (by decide) (by decide +kernel)
    hlossless (by decide +kernel) ⟨⟨0, 4⟩, ⟨6, 8⟩, true, false, false⟩ (by decide +kernel)
    (by decide +kernel) hopens
  revert hquote
  decide +kernel

end TagLint
