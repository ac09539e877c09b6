import Mathlib.Data.List.Induction
import Mathlib.Order.Bounds.Defs
import TagLint.Proofs.Source.Starts
import TagLint.Proofs.Tag.Boundaries

/-!
# Lines and columns of offsets

An offset has a `Place` in a source: the lines before it, the part of its own line that the offset
has passed, and the rest. Both lookups can be read off the place. The line is one more than the
newlines before it (`Place.lineOf_eq`), and the column one more than the characters passed
(`Place.position_eq`). Offsets at boundaries of characters so get different positions, in order
(`LineTable.position_lt`), and the position of such an offset leads back to it
(`LineTable.offsetAt?_position`).
-/

namespace TagLint

/-- Where an offset is in a source: behind some whole lines and some first part of its own line.
What is passed ends at or before the offset, and one more character would not. -/
structure Place (source : List Char) (offset : Nat) (before passed rest : List Char) : Prop where
  spells : source = before ++ (passed ++ rest)
  whole : before = [] ∨ ∃ lines, before = lines ++ ['\n']
  within : '\n' ∉ passed
  reached : Text.byteLength before + Text.byteLength passed ≤ offset
  ahead : ∀ c ∈ rest.head?, offset < Text.byteLength before + Text.byteLength passed + c.utf8Size

namespace Text

/-- The last boundary of a text at or before an offset. -/
theorem exists_floor (cs : List Char) (offset : Nat) : ∃ front rest, cs = front ++ rest ∧
    byteLength front ≤ offset ∧ ∀ c ∈ rest.head?, offset < byteLength front + c.utf8Size := by
  induction cs generalizing offset with
  | nil => exact ⟨[], [], rfl, Nat.zero_le _, by simp⟩
  | cons c cs ih =>
    by_cases hc : c.utf8Size ≤ offset
    · obtain ⟨front, rest, rfl, hreached, hahead⟩ := ih (offset - c.utf8Size)
      refine ⟨c :: front, rest, rfl, ?_, ?_⟩
      · rw [byteLength_cons]
        omega
      · intro d hd
        have hless := hahead d hd
        rw [byteLength_cons]
        omega
    · refine ⟨[], c :: cs, rfl, Nat.zero_le _, ?_⟩
      intro d hd
      obtain rfl : c = d := Option.some.inj hd
      simpa using hc

/-- Between two boundaries there is a text. -/
theorem exists_between {cs : List Char} {first second : Nat} (hfirst : isBoundary cs first = true)
    (hsecond : isBoundary cs second = true) (h : first < second) :
    ∃ front more back, cs = front ++ (more ++ back) ∧ first = byteLength front ∧
      second = byteLength (front ++ more) ∧ more ≠ [] := by
  obtain ⟨front, rest, rfl, rfl⟩ := isBoundary_iff.1 hfirst
  obtain ⟨longer, back, hsplit, rfl⟩ := isBoundary_iff.1 hsecond
  rcases List.append_eq_append_iff.1 hsplit with ⟨more, rfl, rfl⟩ | ⟨more, rfl, -⟩
  · refine ⟨front, more, back, rfl, rfl, rfl, ?_⟩
    rintro rfl
    rw [List.append_nil] at h
    exact absurd h (Nat.lt_irrefl _)
  · rw [byteLength_append] at h
    omega

/-- A text is some whole lines and the beginning of another. -/
theorem exists_lastLine (cs : List Char) : ∃ before passed, cs = before ++ passed ∧
    (before = [] ∨ ∃ lines, before = lines ++ ['\n']) ∧ '\n' ∉ passed := by
  induction cs using List.reverseRecOn with
  | nil => exact ⟨[], [], rfl, .inl rfl, List.not_mem_nil⟩
  | append_singleton cs c ih =>
    by_cases hc : c = '\n'
    · exact ⟨cs ++ [c], [], (List.append_nil _).symm, .inr ⟨cs, by rw [hc]⟩, List.not_mem_nil⟩
    · obtain ⟨before, passed, rfl, hwhole, hwithin⟩ := ih
      refine ⟨before, passed ++ [c], List.append_assoc _ _ _, hwhole, ?_⟩
      simpa [hwithin] using Ne.symm hc

end Text

/-- Behind a first part of a source, when the next character would pass the offset. -/
theorem exists_place_of_append {front rest : List Char} {offset : Nat}
    (hreached : Text.byteLength front ≤ offset)
    (hahead : ∀ c ∈ rest.head?, offset < Text.byteLength front + c.utf8Size) :
    ∃ before passed, front = before ++ passed ∧
      Place (front ++ rest) offset before passed rest := by
  obtain ⟨before, passed, rfl, hwhole, hwithin⟩ := Text.exists_lastLine front
  rw [Text.byteLength_append] at hreached hahead
  exact ⟨before, passed, rfl, List.append_assoc _ _ _, hwhole, hwithin, hreached, hahead⟩

/-- Further on the same line. -/
theorem Place.extend {source before passed more rest : List Char} {offset : Nat}
    (h : Place source offset before passed (more ++ rest)) (hmore : '\n' ∉ more) :
    Place source (Text.byteLength ((before ++ passed) ++ more)) before (passed ++ more) rest := by
  refine ⟨by rw [h.spells, List.append_assoc], h.whole, ?_, by simp, ?_⟩
  · rw [List.mem_append, not_or]
    exact ⟨h.within, hmore⟩
  · intro c _
    have hpos := c.utf8Size_pos
    simp only [Text.byteLength_append]
    omega

/-- Every offset has a place. -/
theorem exists_place (source : List Char) (offset : Nat) :
    ∃ before passed rest, Place source offset before passed rest := by
  obtain ⟨front, rest, rfl, hreached, hahead⟩ := Text.exists_floor source offset
  obtain ⟨before, passed, -, hplace⟩ := exists_place_of_append hreached hahead
  exact ⟨before, passed, rest, hplace⟩

/-- At a boundary all that is before the offset is passed. -/
theorem exists_place_of_boundary (front rest : List Char) : ∃ before passed,
    front = before ++ passed ∧ Place (front ++ rest) (Text.byteLength front) before passed rest :=
  exists_place_of_append (Nat.le_refl _) fun c _ => Nat.lt_add_of_pos_right c.utf8Size_pos

namespace Place

open LineTable

variable {source before passed rest : List Char} {offset : Nat}

theorem starts_eq (h : Place source offset before passed rest) :
    (ofSource source).starts = (0 :: startsAfterNewlines 0 before) ++
      startsAfterNewlines (Text.byteLength before + Text.byteLength passed) rest := by
  have hpassed : startsAfterNewlines (Text.byteLength before) passed = [] := by
    rw [← List.length_eq_zero_iff, length_startsAfterNewlines]
    exact List.count_eq_zero.2 h.within
  rw [h.spells, ofSource, startsAfterNewlines_append, startsAfterNewlines_append, Nat.zero_add,
    hpassed]
  rfl

/-- **Lines.** The line is one more than the newlines before it. -/
theorem lineOf_eq (h : Place source offset before passed rest) :
    (ofSource source).lineOf offset = before.count '\n' + 1 := by
  have hfirst : (0 :: startsAfterNewlines 0 before).countP (· ≤ offset) =
      before.count '\n' + 1 := by
    rw [← length_startsAfterNewlines 0, ← List.length_cons, List.countP_eq_length]
    intro start hstart
    have hle : start ≤ Text.byteLength before := @start_le before start hstart
    have hreached := h.reached
    exact decide_eq_true (by omega)
  have hlast : (startsAfterNewlines (Text.byteLength before + Text.byteLength passed)
      rest).countP (· ≤ offset) = 0 := by
    rw [List.countP_eq_zero]
    intro start hstart
    cases rest with
    | nil => cases hstart
    | cons c rest =>
      have hle := le_of_mem_cons hstart
      have hless := h.ahead c rfl
      simp only [decide_eq_true_eq]
      omega
  rw [lineOf, h.starts_eq, List.countP_append, hfirst, hlast]
  omega

/-- Its start is the end of the lines before it. -/
theorem lineStart?_eq (h : Place source offset before passed rest) :
    (ofSource source).lineStart? ((ofSource source).lineOf offset) =
      some (Text.byteLength before) := by
  have hlast : (0 :: startsAfterNewlines 0 before)[before.count '\n']? =
      some (Text.byteLength before) := by
    rcases h.whole with rfl | ⟨lines, rfl⟩
    · rfl
    · have hcount : (lines ++ ['\n']).count '\n' = lines.count '\n' + 1 := by simp
      have hlength := length_startsAfterNewlines 0 lines
      rw [hcount, List.getElem?_cons_succ, startsAfterNewlines_append, ← hlength,
        List.getElem?_append_right (Nat.le_refl _), Nat.sub_self, Nat.zero_add,
        Text.byteLength_append]
      rfl
  rw [h.lineOf_eq, lineStart?, if_neg (Nat.succ_ne_zero _), Nat.add_sub_cancel, h.starts_eq,
    List.getElem?_append_left, hlast]
  rw [List.length_cons, length_startsAfterNewlines]
  exact Nat.lt_succ_self _

/-! ## Columns -/

/-- What is passed ends at the last boundary before the offset. -/
theorem boundary_le (h : Place source offset before passed rest) {boundary : Nat}
    (hboundary : Text.isBoundary source boundary = true) (hle : boundary ≤ offset) :
    boundary ≤ Text.byteLength before + Text.byteLength passed := by
  obtain ⟨front, back, hsource, rfl⟩ := Text.isBoundary_iff.1 hboundary
  cases rest with
  | nil =>
    have hlength := congrArg Text.byteLength (h.spells.symm.trans hsource)
    simp only [Text.byteLength_append, Text.byteLength_nil] at hlength
    omega
  | cons c rest =>
    have hless := h.ahead c rfl
    have hspells : (before ++ passed) ++ c :: rest = front ++ back := by
      rw [← hsource, h.spells, List.append_assoc]
    have houtside := Text.boundary_outside hspells
    rw [Text.byteLength_append] at houtside
    omega

theorem isBoundary (h : Place source offset before passed rest) :
    Text.isBoundary source (Text.byteLength before + Text.byteLength passed) = true :=
  Text.isBoundary_iff.2 ⟨before ++ passed, rest, by rw [h.spells, List.append_assoc],
    (Text.byteLength_append _ _).symm⟩

/-- Walking back from the offset, the first boundary met is where what is passed ends. -/
theorem boundaryBefore_eq (h : Place source offset before passed rest) {least : Nat}
    (hleast : least ≤ Text.byteLength before) {position : Nat}
    (hreached : Text.byteLength before + Text.byteLength passed ≤ position)
    (hle : position ≤ offset) :
    Text.boundaryBefore source least position =
      Text.byteLength before + Text.byteLength passed := by
  induction position with
  | zero =>
    rw [Text.boundaryBefore]
    omega
  | succ position ih =>
    rw [Text.boundaryBefore]
    cases hboundary : Text.isBoundary source (position + 1) with
    | true =>
      have hlast := h.boundary_le hboundary hle
      rw [if_neg (by simp)]
      omega
    | false =>
      have hne : Text.byteLength before + Text.byteLength passed ≠ position + 1 := by
        intro heq
        have htrue := h.isBoundary
        rw [heq, hboundary] at htrue
        cases htrue
      rw [if_pos ⟨by omega, by rfl⟩]
      exact ih (by omega) (by omega)

theorem byteLength_le (h : Place source offset before passed rest) :
    Text.byteLength before + Text.byteLength passed ≤ Text.byteLength source := by
  rw [h.spells, Text.byteLength_append, Text.byteLength_append]
  omega

theorem slice?_eq (h : Place source offset before passed rest) :
    Text.slice? (Text.byteLength before) (Text.byteLength before + Text.byteLength passed) source =
      some passed := by
  rw [h.spells, Text.slice?_append]

/-- **Columns.** The column is one more than the characters passed on the line. -/
theorem position_eq (h : Place source offset before passed rest) :
    (ofSource source).position source offset = (before.count '\n' + 1, passed.length + 1) := by
  have hfloor := h.boundaryBefore_eq (Nat.le_refl _)
    (Nat.le_min.2 ⟨h.reached, h.byteLength_le⟩) (Nat.min_le_left _ _)
  rw [position, columnOf, h.lineStart?_eq, Option.getD_some, hfloor, Text.slice, h.slice?_eq,
    Option.getD_some, h.lineOf_eq]

/-! ## Bytes -/

/-- The newlines before the line are all those among the bytes up to the offset. -/
theorem count_take_eq (h : Place source offset before passed rest) :
    ((Text.utf8 source).take (min offset (Text.byteLength source))).count Text.newlineByte =
      before.count '\n' := by
  have hreached := Nat.le_min.2 ⟨h.reached, h.byteLength_le⟩
  have hpassed : (Text.utf8 (before ++ passed)).count Text.newlineByte = before.count '\n' := by
    rw [Text.count_newlineByte, List.count_append, List.count_eq_zero.2 h.within, Nat.add_zero]
  have hsource : Text.utf8 source = Text.utf8 (before ++ passed) ++ Text.utf8 rest := by
    rw [h.spells, ← List.append_assoc, Text.utf8_append]
  have hlength : (Text.utf8 (before ++ passed)).length =
      Text.byteLength before + Text.byteLength passed := by
    rw [Text.length_utf8, Text.byteLength_append]
  rw [hsource, List.take_append, List.take_of_length_le (by omega), List.count_append, hpassed,
    hlength, Nat.add_eq_left]
  -- Of the next character some first bytes may be left, but never all.
  cases rest with
  | nil => simp
  | cons c rest =>
    have hless := h.ahead c rfl
    rw [Text.utf8_cons, List.take_append_of_le_length
      (by rw [String.length_utf8EncodeChar]; omega)]
    by_cases hc : c = '\n'
    · subst hc
      have hone : '\n'.utf8Size = 1 := rfl
      rw [Nat.sub_eq_zero_of_le (by omega), List.take_zero, List.count_nil]
    · rw [List.count_eq_zero]
      intro hmem
      exact hc (Text.eq_newline_of_mem_utf8EncodeChar (List.mem_of_mem_take hmem))

/-- At a boundary the offset is where what is passed ends. -/
theorem eq_of_boundary (h : Place source offset before passed rest)
    (hboundary : Text.isBoundary source offset = true) :
    Text.byteLength before + Text.byteLength passed = offset :=
  Nat.le_antisymm h.reached (h.boundary_le hboundary (Nat.le_refl _))

end Place

namespace LineTable

/-- The offset of a line and a column: that of the line and the characters before the column. -/
def offsetAt? (table : LineTable) (source : List Char) (position : Nat × Nat) : Option Nat := do
  let start ← table.lineStart? position.1
  let rest ← Text.dropBytes? start source
  return start + Text.byteLength (rest.take (position.2 - 1))

/-- The position of a boundary leads back to it. -/
theorem offsetAt?_position {source : List Char} {offset : Nat}
    (h : Text.isBoundary source offset = true) :
    (ofSource source).offsetAt? source ((ofSource source).position source offset) =
      some offset := by
  obtain ⟨before, passed, rest, hplace⟩ := exists_place source offset
  have hdrop : Text.dropBytes? (Text.byteLength before) source = some (passed ++ rest) := by
    rw [hplace.spells, Text.dropBytes?_append]
  rw [hplace.position_eq, ← hplace.lineOf_eq, offsetAt?, hplace.lineStart?_eq]
  simp [hdrop, hplace.eq_of_boundary h]

/-- Later boundaries have later positions, line by line and column by column. -/
theorem position_lt {source : List Char} {first second : Nat}
    (hfirst : Text.isBoundary source first = true)
    (hsecond : Text.isBoundary source second = true) (h : first < second) :
    Prod.Lex (· < ·) (· < ·) ((ofSource source).position source first)
      ((ofSource source).position source second) := by
  obtain ⟨front, more, back, rfl, rfl, rfl, hmore⟩ := Text.exists_between hfirst hsecond h
  obtain ⟨before, passed, rfl, hplace⟩ := exists_place_of_boundary front (more ++ back)
  rw [hplace.position_eq]
  by_cases hnewline : '\n' ∈ more
  · -- A newline lies between the two, so the second is on a later line.
    obtain ⟨before', passed', heq, hplace'⟩ :=
      exists_place_of_boundary ((before ++ passed) ++ more) back
    rw [List.append_assoc (before ++ passed)] at hplace'
    rw [hplace'.position_eq]
    refine .left _ _ (Nat.add_lt_add_right ?_ 1)
    have hcount := congrArg (List.count '\n') heq
    simp only [List.count_append, List.count_eq_zero.2 hplace.within,
      List.count_eq_zero.2 hplace'.within] at hcount
    have hpos := List.count_pos_iff.2 hnewline
    omega
  · rw [(hplace.extend hnewline).position_eq]
    refine .right _ (Nat.add_lt_add_right ?_ 1)
    have hpos := List.length_pos_iff.2 hmore
    rw [List.length_append]
    omega

/-! ## Both lookups -/

/-- The line and the column of an offset are what counting in the source gives, and fit in 32
bits. -/
structure Counts (source : List Char) (offset : Nat) : Prop where
  /-- The line is one more than the bytes of newlines before the offset. -/
  line : (ofSource source).lineOf offset =
    ((Text.utf8 source).take (min offset (Text.byteLength source))).count Text.newlineByte + 1
  /-- Searching the table for the offset has an answer, and any answer stands for that line. -/
  found : ∃ answer, Found (ofSource source).starts offset answer
  searched : ∀ answer, Found (ofSource source).starts offset answer →
    lineFound answer = (ofSource source).lineOf offset
  /-- The column is one more than the characters from the start of the line up to the last boundary
  before the offset. -/
  column : ∃ start stop text,
    (ofSource source).lineStart? ((ofSource source).lineOf offset) = some start ∧
    IsGreatest {boundary | Text.isBoundary source boundary = true ∧
      boundary ≤ min offset (Text.byteLength source)} stop ∧
    Text.slice? start stop source = some text ∧
    (ofSource source).position source offset =
      ((ofSource source).lineOf offset, text.length + 1)
  line_le : (ofSource source).lineOf offset ≤ Offset.limit
  column_le : ((ofSource source).position source offset).2 ≤ Offset.limit

theorem counts {source : List Char} (h : Text.byteLength source < Offset.limit) (offset : Nat) :
    Counts source offset := by
  obtain ⟨before, passed, rest, hplace⟩ := exists_place source offset
  have hinside := hplace.byteLength_le
  have hbefore : before.count '\n' ≤ Text.byteLength before :=
    Nat.le_trans List.count_le_length (Text.length_le_byteLength before)
  have hpassed := Text.length_le_byteLength passed
  refine ⟨?_, exists_found (pairwise_starts source) offset,
    fun answer hanswer => hanswer.line_eq.symm, ?_, ?_, ?_⟩
  · rw [hplace.lineOf_eq, hplace.count_take_eq]
  · refine ⟨_, _, passed, hplace.lineStart?_eq, ⟨⟨hplace.isBoundary, ?_⟩, ?_⟩, hplace.slice?_eq, ?_⟩
    · exact Nat.le_min.2 ⟨hplace.reached, hinside⟩
    · rintro boundary ⟨hboundary, hle⟩
      exact hplace.boundary_le hboundary (Nat.le_trans hle (Nat.min_le_left _ _))
    · rw [hplace.position_eq, hplace.lineOf_eq]
  · rw [hplace.lineOf_eq]
    omega
  · rw [hplace.position_eq]
    omega

/-- **Positions.** The table of a source has the offsets after its newlines in ascending order. The
lookups count, positions ascend with the boundaries, and each leads back to its boundary. -/
theorem position_exact {source : List Char} (h : Text.byteLength source < Offset.limit) :
    (ofSource source).starts = 0 :: startsAfterBytes 0 (Text.utf8 source) ∧
      (ofSource source).starts.Pairwise (· < ·) ∧
      (∀ start ∈ (ofSource source).starts, start ≤ Offset.limit) ∧
      (∀ offset, Counts source offset) ∧
      (∀ first second, Text.isBoundary source first = true →
        Text.isBoundary source second = true → first < second →
        Prod.Lex (· < ·) (· < ·) ((ofSource source).position source first)
          ((ofSource source).position source second)) ∧
      ∀ offset, Text.isBoundary source offset = true →
        (ofSource source).offsetAt? source ((ofSource source).position source offset) =
          some offset := by
  refine ⟨starts_ofSource_eq (Nat.le_of_lt h), pairwise_starts source, ?_, counts h, ?_, ?_⟩
  · intro start hstart
    exact Nat.le_trans (start_le hstart) (Nat.le_of_lt h)
  · intro first second hfirst hsecond hless
    exact position_lt hfirst hsecond hless
  · intro offset hoffset
    exact offsetAt?_position hoffset

/-- Two lines. The second has a character of two bytes, from 3 to 5, and a newline at its end. -/
def twoLines : List Char := "id\n\u00e9\n".toList

/-- Offset 4 is inside the character of two bytes and is taken for its start. -/
theorem position_exact_twoLines :
    Text.byteLength twoLines < Offset.limit ∧
      startsAfterBytes 0 (Text.utf8 twoLines) = [3, 6] ∧
      (ofSource twoLines).starts = 0 :: startsAfterBytes 0 (Text.utf8 twoLines) ∧
      Found (ofSource twoLines).starts 4 (.error 2) ∧ Counts twoLines 4 ∧
      (ofSource twoLines).position twoLines 4 = (2, 1) ∧
      Prod.Lex (· < ·) (· < ·) ((ofSource twoLines).position twoLines 2)
        ((ofSource twoLines).position twoLines 5) ∧
      (ofSource twoLines).position twoLines 5 = (2, 2) ∧
      (ofSource twoLines).offsetAt? twoLines (2, 2) = some 5 := by
  have hsmall : Text.byteLength twoLines < Offset.limit := by decide +kernel
  obtain ⟨hstarts, -, -, hcounts, hascending, hback⟩ := position_exact hsmall
  have hfound : Found (ofSource twoLines).starts 4 (.error 2) :=
    .absent (by decide +kernel) (by decide +kernel) (by decide +kernel)
  have hposition : (ofSource twoLines).position twoLines 5 = (2, 2) := by decide +kernel
  have hoffset := hback 5 (by decide +kernel)
  rw [hposition] at hoffset
  exact ⟨hsmall, by decide +kernel, hstarts, hfound, hcounts 4, by decide +kernel,
    hascending 2 5 (by decide +kernel) (by decide +kernel) (by decide), hposition, hoffset⟩

end LineTable

end TagLint
