import TagLint.Proofs.Literal.Order
import TagLint.Proofs.Tag.Shapes

/-!
# Which entry a problem comes from

What a check reports of the pairs of a literal comes from an entry of its content
(`exists_raw_of_mem_check`), with the offsets of that entry moved into the source. Two kinds of
problem are followed back to their entry here: an unknown key is reported where the key begins,
and a missing separator one byte before the value.
-/

namespace TagLint

namespace Entry

variable {allowed : AllowList} {entry : Entry} {key : String} {offset : Offset}

theorem key_of_mem_problems (h : ⟨.unknownKey key, offset⟩ ∈ entry.problems allowed) :
    entry.key = key ∧ key ≠ "" ∧ entry.keyOffset = offset := by
  obtain ⟨hkey, hne, -⟩ := breaks_of_mem_problems h
  refine ⟨hkey, hne, ?_⟩
  rcases List.mem_append.1 h with h | h
  · unfold keyProblems at h
    split at h
    · simp at h
    · split at h
      · cases h
      · exact (congrArg Problem.offset (List.mem_singleton.1 h)).symm
  · simp only [valueProblems, quoteProblems, separatorProblems] at h
    split_ifs at h <;> simp at h

theorem value_of_mem_problems (h : ⟨.missingSeparator, offset⟩ ∈ entry.problems allowed) :
    entry.value ≠ "" ∧ entry.separated = false ∧ entry.valueOffset - 1 = offset := by
  obtain ⟨hvalue, hseparated⟩ := breaks_of_mem_problems h
  refine ⟨hvalue, hseparated, ?_⟩
  rcases List.mem_append.1 h with h | h
  · simp only [keyProblems] at h
    split_ifs at h <;> simp at h
  · have hempty : entry.value.isEmpty = false := by simpa using hvalue
    rw [valueProblems, hempty, if_neg Bool.false_ne_true] at h
    rcases List.mem_append.1 h with h | h
    · simp only [quoteProblems] at h
      split_ifs at h <;> simp at h
    · rw [separatorProblems, hseparated, if_neg Bool.false_ne_true, List.mem_singleton] at h
      exact (congrArg Problem.offset h).symm

end Entry

/-- What is not reported of the literal itself or of a single character belongs to an entry. -/
theorem TagLiteral.exists_raw_of_mem_check {literal : TagLiteral} {allowed : AllowList}
    {problem : Problem} (h : problem ∈ literal.check allowed)
    (hliteral : problem.kind ≠ .malformedLiteral) (hchar : problem.kind ≠ .invalidKeyChar) :
    ∃ raw ∈ rawEntries literal.content,
      problem ∈ (Entry.ofRaw literal.content literal.toSource raw).problems allowed := by
  by_cases hempty : literal.text = ""
  · simp [TagLiteral.check, TagLiteral.scan, hempty, ScanResult.check, validate] at h
  rw [literal.check_eq allowed hempty] at h
  rcases List.mem_append.1 h with hmalformed | hcheck
  · rcases literal.malformed_cases with hnone | hone
    · rw [hnone] at hmalformed
      cases hmalformed
    · rw [hone] at hmalformed
      exact absurd (congrArg Problem.kind (List.mem_singleton.1 hmalformed)) hliteral
  · rcases List.mem_append.1 hcheck with hscan | hvalidate
    · obtain ⟨offset, -, rfl⟩ := List.mem_map.1 hscan
      exact absurd rfl hchar
    · obtain ⟨entry, hentry, hproblem⟩ := List.mem_flatMap.1 hvalidate
      obtain ⟨raw, hraw, rfl⟩ := List.mem_map.1 hentry
      exact ⟨raw, hraw, hproblem⟩

section Check

variable {literal : TagLiteral} {allowed : AllowList} {key : String} {offset : Offset}

/-- An unknown key is the key of an entry, reported where it begins. -/
theorem TagLiteral.exists_key_of_mem_check (h : ⟨.unknownKey key, offset⟩ ∈ literal.check allowed) :
    ∃ raw ∈ rawEntries literal.content, raw.key.cut literal.content = key ∧ key ≠ "" ∧
      literal.toSource raw.key.start = offset := by
  obtain ⟨raw, hraw, hproblem⟩ := exists_raw_of_mem_check h (by simp) (by simp)
  exact ⟨raw, hraw, Entry.key_of_mem_problems hproblem⟩

end Check

end TagLint
