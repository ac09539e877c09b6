import TagLint.Proofs.Text.Cut
import TagLint.Source.Lines
import TagLint.Text.Utf8.Lemmas

/-!
# The starts of lines

A line table is read off the characters of a source, but the newlines can as well be found among its
bytes (`starts_ofSource_eq`): no other character has the byte of a newline, and a newline has no
other byte. The starts ascend (`pairwise_starts`), so the line of an offset can be searched for by
halving the table, and whatever such a search answers stands for the line that is found by counting
(`Found.line_eq`).
-/

namespace TagLint

namespace Text

/-- The byte of a newline. -/
def newlineByte : UInt8 := 0x0A

/-- No other character has the byte of a newline. -/
theorem eq_newline_of_mem_utf8EncodeChar {c : Char} (h : newlineByte ∈ String.utf8EncodeChar c) :
    c = '\n' := by
  obtain ⟨b, bytes, hc, hdecode⟩ := decodeFirst_append_utf8 c
  obtain ⟨i, hi, hbyte⟩ := List.mem_iff_getElem.1 h
  have hfirst : newlineByte.IsUTF8FirstByte := by decide
  rw [← hbyte, UInt8.isUTF8FirstByte_getElem_utf8EncodeChar] at hfirst
  subst hfirst
  -- So the character begins with it, and is read back from there.
  have hb : b = newlineByte := by simpa [hc] using hbyte
  have hread : decodeFirst newlineByte (bytes ++ []) = (c, []) := hb ▸ hdecode []
  exact (congrArg Prod.fst hread).symm

theorem count_newlineByte_of_ne {c : Char} (h : c ≠ '\n') :
    (String.utf8EncodeChar c).count newlineByte = 0 :=
  List.count_eq_zero.2 fun hmem => h (eq_newline_of_mem_utf8EncodeChar hmem)

/-- A text has as many newlines as bytes of them. -/
theorem count_newlineByte (cs : List Char) : (utf8 cs).count newlineByte = cs.count '\n' := by
  induction cs with
  | nil => rfl
  | cons c cs ih =>
    rw [utf8_cons, List.count_append, ih]
    by_cases hc : c = '\n'
    · subst hc
      rw [List.count_cons_self, Nat.add_comm]
      rfl
    · rw [List.count_cons_of_ne hc, count_newlineByte_of_ne hc, Nat.zero_add]

end Text

namespace LineTable

/-! ## The table -/

theorem startsAfterNewlines_append (offset : Nat) (cs ds : List Char) :
    startsAfterNewlines offset (cs ++ ds) =
      startsAfterNewlines offset cs ++ startsAfterNewlines (offset + Text.byteLength cs) ds := by
  induction cs generalizing offset with
  | nil => rfl
  | cons c cs ih =>
    simp only [List.cons_append, startsAfterNewlines, ih, Text.byteLength_cons, Nat.add_assoc]
    split <;> rfl

theorem length_startsAfterNewlines (offset : Nat) (cs : List Char) :
    (startsAfterNewlines offset cs).length = cs.count '\n' := by
  induction cs generalizing offset with
  | nil => rfl
  | cons c cs ih =>
    by_cases hc : c = '\n'
    · simp [startsAfterNewlines, hc, ih]
    · simp [startsAfterNewlines, hc, ih]

/-- A line that starts after a newline starts behind the first byte of the text, and at the end of
the text at the latest. -/
theorem bounds_of_mem {offset start : Nat} {cs : List Char}
    (h : start ∈ startsAfterNewlines offset cs) :
    offset < start ∧ start ≤ offset + Text.byteLength cs := by
  induction cs generalizing offset with
  | nil => cases h
  | cons c cs ih =>
    have hpos := c.utf8Size_pos
    have hrest (hmem : start ∈ startsAfterNewlines (offset + c.utf8Size) cs) :
        offset < start ∧ start ≤ offset + Text.byteLength (c :: cs) := by
      have hbounds := ih hmem
      rw [Text.byteLength_cons]
      omega
    simp only [startsAfterNewlines] at h
    split at h
    · rcases List.mem_cons.1 h with rfl | hmem
      · rw [Text.byteLength_cons]
        omega
      · exact hrest hmem
    · exact hrest h

/-- It never starts before the end of the first character. -/
theorem le_of_mem_cons {offset start : Nat} {c : Char} {cs : List Char}
    (h : start ∈ startsAfterNewlines offset (c :: cs)) : offset + c.utf8Size ≤ start := by
  simp only [startsAfterNewlines] at h
  split at h
  · rcases List.mem_cons.1 h with rfl | hmem
    · exact Nat.le_refl _
    · exact Nat.le_of_lt (bounds_of_mem hmem).1
  · exact Nat.le_of_lt (bounds_of_mem h).1

theorem pairwise_startsAfterNewlines (offset : Nat) (cs : List Char) :
    (startsAfterNewlines offset cs).Pairwise (· < ·) := by
  induction cs generalizing offset with
  | nil => exact .nil
  | cons c cs ih =>
    simp only [startsAfterNewlines]
    split
    · exact List.pairwise_cons.2 ⟨fun _ hstart => (bounds_of_mem hstart).1, ih _⟩
    · exact ih _

/-- The starts of lines ascend. -/
theorem pairwise_starts (source : List Char) : (ofSource source).starts.Pairwise (· < ·) :=
  List.pairwise_cons.2
    ⟨fun _ hstart => (bounds_of_mem hstart).1, pairwise_startsAfterNewlines 0 source⟩

/-- Every line starts inside the source or at its end. -/
theorem start_le {source : List Char} {start : Nat} (h : start ∈ (ofSource source).starts) :
    start ≤ Text.byteLength source := by
  rcases List.mem_cons.1 h with rfl | hmem
  · exact Nat.zero_le _
  · simpa using (bounds_of_mem hmem).2

/-- The offsets after the bytes of newlines, when the first byte is at `offset`. -/
def startsAfterBytes (offset : Nat) (bytes : List UInt8) : List Nat :=
  (bytes.zipIdx offset).filterMap fun (byte, index) =>
    if byte = Text.newlineByte then some (Offset.clamp (index + 1)) else none

theorem startsAfterBytes_append (offset : Nat) (xs ys : List UInt8) :
    startsAfterBytes offset (xs ++ ys) =
      startsAfterBytes offset xs ++ startsAfterBytes (offset + xs.length) ys := by
  rw [startsAfterBytes, List.zipIdx_append, List.filterMap_append]
  rfl

/-- The newlines are the same among the characters and among the bytes. -/
theorem startsAfterNewlines_eq {offset : Nat} {cs : List Char}
    (h : offset + Text.byteLength cs ≤ Offset.limit) :
    startsAfterNewlines offset cs = startsAfterBytes offset (Text.utf8 cs) := by
  induction cs generalizing offset with
  | nil => rfl
  | cons c cs ih =>
    rw [Text.byteLength_cons, ← Nat.add_assoc] at h
    rw [Text.utf8_cons, startsAfterBytes_append, String.length_utf8EncodeChar, ← ih h]
    by_cases hc : c = '\n'
    · subst hc
      have hnext : Offset.clamp (offset + 1) = offset + 1 :=
        Offset.clamp_of_le (Nat.le_trans (Nat.le_add_right _ _) h)
      have hbyte : startsAfterBytes offset (String.utf8EncodeChar '\n') = [offset + 1] := by
        rw [← hnext]
        rfl
      rw [hbyte]
      rfl
    · have hnone : startsAfterBytes offset (String.utf8EncodeChar c) = [] := by
        rw [startsAfterBytes, List.filterMap_eq_nil_iff]
        intro (byte, index) hmem
        refine if_neg ?_
        rintro rfl
        exact hc (Text.eq_newline_of_mem_utf8EncodeChar (List.fst_mem_of_mem_zipIdx hmem))
      rw [hnone, startsAfterNewlines, if_neg hc]
      rfl

theorem starts_ofSource_eq {source : List Char} (h : Text.byteLength source ≤ Offset.limit) :
    (ofSource source).starts = 0 :: startsAfterBytes 0 (Text.utf8 source) :=
  congrArg (0 :: ·) (startsAfterNewlines_eq (by rwa [Nat.zero_add]))

/-! ## Searching the table -/

/-- What searching ascending numbers for one of them can answer. -/
inductive Found (starts : List Nat) (offset : Nat) : Except Nat Nat → Prop
  /-- The number is there. -/
  | present {index : Nat} (h : starts[index]? = some offset) : Found starts offset (.ok index)
  /-- The number is not there, and inserted at the index it keeps the others in order. -/
  | absent {index : Nat} (habsent : offset ∉ starts) (hindex : index ≤ starts.length)
      (hsorted : (starts.take index ++ offset :: starts.drop index).Pairwise (· ≤ ·)) :
      Found starts offset (.error index)

/-- In ascending numbers there is an index for every other. -/
theorem exists_index {starts : List Nat} (hsorted : starts.Pairwise (· < ·)) (offset : Nat) :
    ∃ index ≤ starts.length,
      (starts.take index ++ offset :: starts.drop index).Pairwise (· ≤ ·) := by
  induction starts with
  | nil => exact ⟨0, Nat.le_refl _, by simp⟩
  | cons start starts ih =>
    obtain ⟨hfirst, hrest⟩ := List.pairwise_cons.1 hsorted
    by_cases hle : offset ≤ start
    · refine ⟨0, Nat.zero_le _, List.pairwise_cons.2 ⟨?_, hsorted.imp Nat.le_of_lt⟩⟩
      intro later hlater
      rcases List.mem_cons.1 hlater with rfl | hmem
      · exact hle
      · exact Nat.le_trans hle (Nat.le_of_lt (hfirst later hmem))
    · obtain ⟨index, hindex, hinserted⟩ := ih hrest
      refine ⟨index + 1, Nat.succ_le_succ hindex, List.pairwise_cons.2 ⟨?_, hinserted⟩⟩
      intro later hlater
      rcases List.mem_append.1 hlater with hmem | hmem
      · exact Nat.le_of_lt (hfirst later (List.mem_of_mem_take hmem))
      · rcases List.mem_cons.1 hmem with rfl | hmem
        · omega
        · exact Nat.le_of_lt (hfirst later (List.mem_of_mem_drop hmem))

/-- A search of ascending numbers has an answer. -/
theorem exists_found {starts : List Nat} (hsorted : starts.Pairwise (· < ·)) (offset : Nat) :
    ∃ answer, Found starts offset answer := by
  by_cases hmem : offset ∈ starts
  · obtain ⟨index, hget⟩ := List.mem_iff_getElem?.1 hmem
    exact ⟨.ok index, .present hget⟩
  · obtain ⟨index, hindex, hinserted⟩ := exists_index hsorted offset
    exact ⟨.error index, .absent hmem hindex hinserted⟩

/-- The line that an answer stands for. -/
def lineFound : Except Nat Nat → Nat
  | .ok index => index + 1
  | .error index => (index - 1) + 1

/-- Counting the numbers up to a bound finds where they pass it. -/
theorem countP_le_eq {xs : List Nat} {bound index : Nat} (hindex : index ≤ xs.length)
    (hbefore : ∀ x ∈ xs.take index, x ≤ bound) (hafter : ∀ x ∈ xs.drop index, bound < x) :
    xs.countP (· ≤ bound) = index := by
  have hfirst : (xs.take index).countP (· ≤ bound) = (xs.take index).length :=
    List.countP_eq_length.2 fun x hx => decide_eq_true (hbefore x hx)
  have hlast : (xs.drop index).countP (· ≤ bound) = 0 :=
    List.countP_eq_zero.2 fun x hx => by simpa using hafter x hx
  rw [← List.take_append_drop index xs, List.countP_append, hfirst, hlast, Nat.add_zero,
    List.length_take_of_le hindex]

theorem Found.countP_eq {starts : List Nat} {offset : Nat} {answer : Except Nat Nat}
    (h : Found starts offset answer) (hsorted : starts.Pairwise (· < ·)) :
    max 1 (starts.countP (· ≤ offset)) = lineFound answer := by
  cases h with
  | @present index hget =>
    obtain ⟨hindex, hoffset⟩ := List.getElem?_eq_some_iff.1 hget
    have hsplit : starts = starts.take index ++ offset :: starts.drop (index + 1) := by
      rw [← hoffset, ← List.drop_eq_getElem_cons hindex, List.take_append_drop]
    rw [hsplit] at hsorted
    obtain ⟨-, hafter, hbefore⟩ := List.pairwise_append.1 hsorted
    have hcount : starts.countP (· ≤ offset) = index + 1 := by
      refine countP_le_eq hindex ?_ (List.pairwise_cons.1 hafter).1
      intro x hx
      rw [List.take_succ_eq_append_getElem hindex, hoffset, List.mem_append,
        List.mem_singleton] at hx
      rcases hx with hx | rfl
      · exact Nat.le_of_lt (hbefore x hx offset List.mem_cons_self)
      · exact Nat.le_refl _
    rw [hcount, lineFound]
    omega
  | @absent index habsent hindex hinserted =>
    obtain ⟨-, hafter, hbefore⟩ := List.pairwise_append.1 hinserted
    have hcount : starts.countP (· ≤ offset) = index := by
      refine countP_le_eq hindex ?_ ?_
      · intro x hx
        exact hbefore x hx offset List.mem_cons_self
      · intro x hx
        have hle := (List.pairwise_cons.1 hafter).1 x hx
        have hne : offset ≠ x := fun heq => habsent (heq ▸ List.mem_of_mem_drop hx)
        omega
    rw [hcount, lineFound]
    omega

/-- Whatever a search answers, it stands for the line that counting gives. -/
theorem Found.line_eq {source : List Char} {offset : Nat} {answer : Except Nat Nat}
    (h : Found (ofSource source).starts offset answer) :
    (ofSource source).lineOf offset = lineFound answer :=
  h.countP_eq (pairwise_starts source)

end LineTable

end TagLint
