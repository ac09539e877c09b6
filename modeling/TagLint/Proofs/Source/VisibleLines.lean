import TagLint.Proofs.Source.Positions

/-!
# The visible text of lines

What is shown of a line is its text without what ends it: carriage returns, and then a newline or
the end of the source (`VisibleLine`). The line table cuts a line from its start to the start of the
next one (`Place.nextStart_eq`), and dropping newlines and carriage returns from the end of that
leaves the visible text (`Place.exists_visibleLine`).
-/

namespace TagLint

/-- A line of a source: whole lines before it, its visible text, and what ends it. -/
structure VisibleLine (source before visible returns later : List Char) : Prop where
  spells : source = before ++ (visible ++ (returns ++ later))
  whole : before = [] ∨ ∃ lines, before = lines ++ ['\n']
  within : '\n' ∉ visible
  trimmed : visible.getLast? ≠ some '\r'
  returns : ∀ c ∈ returns, c = '\r'
  ends : later = [] ∨ ∃ next, later = '\n' :: next

namespace Text

/-- A text begins with a line. -/
theorem exists_firstLine (cs : List Char) : ∃ line later, cs = line ++ later ∧ '\n' ∉ line ∧
    (later = [] ∨ ∃ next, later = '\n' :: next) := by
  induction cs with
  | nil => exact ⟨[], [], rfl, List.not_mem_nil, .inl rfl⟩
  | cons c cs ih =>
    by_cases hc : c = '\n'
    · exact ⟨[], c :: cs, rfl, List.not_mem_nil, .inr ⟨cs, by rw [hc]⟩⟩
    · obtain ⟨line, later, rfl, hline, hlater⟩ := ih
      refine ⟨c :: line, later, rfl, ?_, hlater⟩
      rw [List.mem_cons, not_or]
      exact ⟨Ne.symm hc, hline⟩

/-- A line has carriage returns behind its visible text, and no more than those. -/
theorem exists_returns {line : List Char} (h : '\n' ∉ line) : ∃ visible returns,
    line = visible ++ returns ∧ dropEndWhile (fun c => c == '\n' || c == '\r') line = visible ∧
      visible.getLast? ≠ some '\r' ∧ ∀ c ∈ returns, c = '\r' := by
  refine ⟨_, line.rtakeWhile (fun c => c == '\n' || c == '\r'),
    (List.rdropWhile_append_rtakeWhile ..).symm, dropEndWhile_eq_rdropWhile .., ?_, ?_⟩
  · intro hlast
    obtain ⟨hne, hget⟩ := List.mem_getLast?_eq_getLast hlast
    have hkept := List.rdropWhile_last_not _ _ hne
    rw [← hget] at hkept
    exact hkept rfl
  · intro c hc
    have hblank := List.mem_rtakeWhile_imp hc
    have hmem := (List.rtakeWhile_suffix _ _).mem hc
    have hne : c ≠ '\n' := fun heq => h (heq ▸ hmem)
    simpa [hne] using hblank

end Text

namespace LineTable

/-- At a boundary the line is one more than the newlines before it. -/
theorem lineOf_boundary (front rest : List Char) :
    (ofSource (front ++ rest)).lineOf (Text.byteLength front) = front.count '\n' + 1 := by
  obtain ⟨before, passed, rfl, hplace⟩ := exists_place_of_boundary front rest
  rw [hplace.lineOf_eq, List.count_append, List.count_eq_zero.2 hplace.within, Nat.add_zero]

end LineTable

namespace Place

open LineTable

variable {source before passed line later : List Char} {offset : Nat}

/-- The next line starts behind the newline that ends this one, if there is one. -/
theorem nextStart_eq (h : Place source offset before passed (line ++ later)) (hline : '\n' ∉ line)
    (hlater : later = [] ∨ ∃ next, later = '\n' :: next) :
    ((ofSource source).lineStart? ((ofSource source).lineOf offset + 1)).getD
        (Text.byteLength source) =
      Text.byteLength (before ++ ((passed ++ line) ++ later.take 1)) := by
  rcases hlater with rfl | ⟨next, rfl⟩
  · -- The table ends with this line.
    have hlength : (ofSource source).starts.length = before.count '\n' + 1 := by
      rw [h.starts_eq, List.length_append, List.length_cons, length_startsAfterNewlines,
        length_startsAfterNewlines, List.append_nil, List.count_eq_zero.2 hline, Nat.add_zero]
    have hnone : (ofSource source).lineStart? ((ofSource source).lineOf offset + 1) = none := by
      rw [lineStart?, if_neg (Nat.succ_ne_zero _), Nat.add_sub_cancel, h.lineOf_eq]
      exact List.getElem?_eq_none (Nat.le_of_eq hlength)
    rw [hnone, Option.getD_none, h.spells, List.take_nil, List.append_nil, List.append_nil]
  · obtain ⟨lines, hlines⟩ : ∃ lines, lines = before ++ ((passed ++ line) ++ ['\n']) := ⟨_, rfl⟩
    have hspells : source = lines ++ ([] ++ next) := by
      rw [h.spells, hlines]
      simp
    have hplace : Place source (Text.byteLength lines) lines [] next := by
      refine ⟨hspells, .inr ⟨before ++ (passed ++ line), by simp [hlines]⟩, List.not_mem_nil,
        Nat.le_refl _, ?_⟩
      intro c _
      have hpos := c.utf8Size_pos
      simp only [Text.byteLength_nil]
      omega
    have hnumber : (ofSource source).lineOf offset + 1 =
        (ofSource source).lineOf (Text.byteLength lines) := by
      rw [h.lineOf_eq, hplace.lineOf_eq, hlines]
      simp [List.count_eq_zero.2 h.within, List.count_eq_zero.2 hline]
    rw [hnumber, hplace.lineStart?_eq, Option.getD_some, hlines]
    rfl

/-- **Lines.** What is shown of the line of an offset is its visible text. -/
theorem exists_visibleLine {rest : List Char} (h : Place source offset before passed rest) :
    ∃ visible returns later, VisibleLine source before visible returns later ∧
      passed ++ rest = visible ++ (returns ++ later) ∧
      (ofSource source).lineText? source ((ofSource source).lineOf offset) = some visible := by
  obtain ⟨line, later, rfl, hline, hlater⟩ := Text.exists_firstLine rest
  have hwhole : '\n' ∉ passed ++ line := by
    rw [List.mem_append, not_or]
    exact ⟨h.within, hline⟩
  obtain ⟨visible, returns, hsplit, hdrop, htrimmed, hreturns⟩ := Text.exists_returns hwhole
  have hspells : source = before ++ (((passed ++ line) ++ later.take 1) ++ later.drop 1) := by
    rw [h.spells, List.append_assoc (passed ++ line), List.take_append_drop, List.append_assoc]
  have hslice : Text.slice? (Text.byteLength before)
      (Text.byteLength (before ++ ((passed ++ line) ++ later.take 1))) source =
      some ((passed ++ line) ++ later.take 1) := by
    rw [Text.byteLength_append, hspells, Text.slice?_append]
  have htext : Text.dropEndWhile (fun c => c == '\n' || c == '\r')
      ((passed ++ line) ++ later.take 1) = visible := by
    rw [Text.dropEndWhile_eq_rdropWhile] at hdrop ⊢
    rcases hlater with rfl | ⟨next, rfl⟩
    · rw [List.take_nil, List.append_nil, hdrop]
    · exact (List.rdropWhile_concat_pos _ _ '\n' rfl).trans hdrop
  refine ⟨visible, returns, later, ⟨?_, h.whole, ?_, htrimmed, hreturns, hlater⟩, ?_, ?_⟩
  · rw [h.spells, ← List.append_assoc passed, hsplit, List.append_assoc]
  · exact fun hmem => hwhole (hsplit ▸ List.mem_append_left returns hmem)
  · rw [← List.append_assoc, hsplit, List.append_assoc]
  · rw [lineText?, h.lineStart?_eq, h.nextStart_eq hline hlater]
    show (Text.slice? _ _ source).bind _ = _
    rw [hslice]
    exact congrArg some htext

end Place

end TagLint
