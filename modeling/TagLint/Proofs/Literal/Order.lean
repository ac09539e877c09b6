import TagLint.Proofs.Lint.Relocation

/-!
# What scanning finds is in order

Inside a content everything stands from left to right: entries follow each other with at least
one byte between them, and characters are reported in the order in which they are read. Moving
offsets into the source keeps this, because the way back is strictly increasing as long as
nothing saturates (`literalOffset_lt`). That holds of every content, also of one with
replacement characters, whose offsets can pass the end of the literal.
-/

namespace TagLint

namespace Literal

variable {text : List Char}

/-- The offset map of a content is that of tokens that never grow, and the literal counted
twice has room for the content beside them. -/
theorem exists_tokens_of_prepare (text : List Char) : ∃ tokens : List Token,
    (∀ token ∈ tokens, token.bytes.length ≤ token.width) ∧
      (prepare text).map = .ofTokens tokens ∧
      (prepare text).contentStart + Text.byteLength (prepare text).content +
        Text.byteLength (sources tokens) ≤ 2 * Text.byteLength text := by
  unfold prepare
  cases hunquote : unquote text with
  | ok unquoted =>
    obtain ⟨delimiter, tokens, hproper, rfl, hlength, -⟩ := exists_tokens_of_ok hunquote
    have hshort := byteLength_decodeLossy_le tokens hproper
    refine ⟨tokens, fun token htoken => (hproper token htoken).length_le, rfl, ?_⟩
    show 1 + Text.byteLength (Text.decodeLossy (contentBytes tokens)) +
      Text.byteLength (sources tokens) ≤ 2 * Text.byteLength text
    omega
  | error error =>
    have htrimmed := byteLength_trimmed_le text error
    have hstart := Offset.clamp_le (Text.byteLength (text.takeWhile isQuote))
    refine ⟨[], by simp, rfl, ?_⟩
    show Offset.clamp (Text.byteLength (text.takeWhile isQuote)) +
      Text.byteLength (trimmed text error).content + 0 ≤ 2 * Text.byteLength text
    lia

/-- A character of the content starts before the end of the literal counted twice. -/
theorem start_add_toBody_lt {offset : Offset}
    (h : offset < Text.byteLength (prepare text).content) :
    (prepare text).contentStart + (prepare text).map.toBody offset <
      2 * Text.byteLength text := by
  obtain ⟨tokens, hshort, hmap, hroom⟩ := exists_tokens_of_prepare text
  have hbody := OffsetMap.toBody_le offset hshort
  rw [hmap]
  lia

theorem literalOffset_lt {first second : Offset} (h : first < second)
    (hinside : second ≤ Text.byteLength (prepare text).content)
    (hlimit : 2 * Text.byteLength text ≤ Offset.limit) :
    (prepare text).literalOffset first < (prepare text).literalOffset second := by
  have hstart := start_add_toBody_lt (Nat.lt_of_lt_of_le h hinside)
  obtain ⟨tokens, hshort, hmap, hroom⟩ := exists_tokens_of_prepare text
  have hbody : (prepare text).map.toBody first < (prepare text).map.toBody second := by
    have hfirst := OffsetMap.extraAt_le first hshort
    rw [hmap]
    apply Offset.clamp_lt_clamp
    · exact Nat.add_lt_add_of_lt_of_le h (OffsetMap.extraAt_mono tokens (Nat.le_of_lt h) hshort)
    · lia
  apply Offset.clamp_lt_clamp
  · exact Nat.add_lt_add_left hbody _
  · exact Nat.lt_of_lt_of_le hstart hlimit

end Literal

/-! ## The order of a scan -/

/-- What was found stands from left to right. -/
structure ScanResult.Ordered (found : ScanResult) : Prop where
  problems : found.problems.Pairwise fun first second => first.offset ≤ second.offset
  /-- A malformed literal is reported once at most, before everything else. -/
  malformed_first : ∀ index problem, found.problems[index]? = some problem →
    problem.kind = .malformedLiteral → index = 0
  invalid : (found.problems.filter (·.kind = .invalidKeyChar)).Pairwise
    fun first second => first.offset < second.offset
  entry : ∀ entry ∈ found.entries,
    entry.keyOffset ≤ entry.valueOffset ∧ entry.valueOffset ≤ entry.valueEnd
  entries : found.entries.Pairwise fun first second => first.valueEnd < second.keyOffset

namespace TagLiteral

variable {literal : TagLiteral}

/-- The content that a literal is scanned as. -/
abbrev content (literal : TagLiteral) : List Char :=
  (Literal.prepare literal.text.toList).content

theorem toSource_mono (literal : TagLiteral) {first second : Offset} (h : first ≤ second) :
    literal.toSource first ≤ literal.toSource second :=
  Offset.clamp_mono (Nat.add_le_add_left (Literal.literalOffset_mono _ h) _)

theorem toSource_lt (hfits : literal.offset + 2 * literal.text.utf8ByteSize ≤ Offset.limit)
    {first second : Offset} (h : first < second)
    (hinside : second ≤ Text.byteLength literal.content) :
    literal.toSource first < literal.toSource second := by
  rw [← Text.byteLength_toList] at hfits
  have hstart := Literal.start_add_toBody_lt (Nat.lt_of_lt_of_le h hinside)
  have hliteral := Literal.literalOffset_lt h hinside
    (Nat.le_trans (Nat.le_add_left _ _) hfits)
  have hfirst : (Literal.prepare literal.text.toList).literalOffset first ≤
      (Literal.prepare literal.text.toList).contentStart +
        (Literal.prepare literal.text.toList).map.toBody first := Offset.shift_le _ _
  apply Offset.clamp_lt_clamp
  · exact Nat.add_lt_add_left hliteral _
  · lia

/-- The problems of a scan: that of the literal, then the characters that may not stand where
they do. -/
theorem problems_scan (h : literal.text ≠ "") :
    literal.scan.problems = literal.malformed ++
      (invalidOffsets literal.content).map fun offset =>
        ⟨.invalidKeyChar, literal.toSource offset⟩ := by
  have hempty : literal.text.isEmpty = false := by simpa using h
  unfold TagLiteral.scan malformed content toSource
  rw [hempty]
  cases hunquote : Literal.unquote literal.text.toList with
  | ok unquoted => simp [Literal.prepare, hunquote, scanWith]
  | error error => simp [Literal.prepare, hunquote, Literal.trimmed, scanWith]

theorem malformed_cases (literal : TagLiteral) :
    literal.malformed = [] ∨ literal.malformed = [⟨.malformedLiteral, literal.offset⟩] := by
  unfold malformed
  split
  · exact .inl rfl
  · exact .inr rfl

/-- A literal that does not unquote is reported once, before everything else. -/
theorem index_of_malformed (h : literal.text ≠ "") {index : Nat} {problem : Problem}
    (hindex : literal.scan.problems[index]? = some problem)
    (hkind : problem.kind = .malformedLiteral) : index = 0 := by
  have hlater (index : Nat) : ((invalidOffsets literal.content).map fun offset =>
      (⟨.invalidKeyChar, literal.toSource offset⟩ : Problem))[index]? ≠ some problem := by
    intro h
    obtain ⟨offset, -, rfl⟩ := List.mem_map.1 (List.mem_of_getElem? h)
    cases hkind
  rw [problems_scan h] at hindex
  rcases literal.malformed_cases with hnone | hone
  · rw [hnone, List.nil_append] at hindex
    exact absurd hindex (hlater index)
  · cases index with
    | zero => rfl
    | succ index =>
      rw [hone, List.singleton_append, List.getElem?_cons_succ] at hindex
      exact absurd hindex (hlater index)

theorem filter_problems_scan (h : literal.text ≠ "") :
    literal.scan.problems.filter (·.kind = .invalidKeyChar) =
      (invalidOffsets literal.content).map fun offset =>
        ⟨.invalidKeyChar, literal.toSource offset⟩ := by
  have hmalformed : literal.malformed.filter (·.kind = .invalidKeyChar) = [] := by
    rcases literal.malformed_cases with hnone | hone
    · rw [hnone, List.filter_nil]
    · rw [hone]
      rfl
  rw [problems_scan h, List.filter_append, hmalformed, List.nil_append, List.filter_eq_self]
  intro problem hproblem
  obtain ⟨offset, -, rfl⟩ := List.mem_map.1 hproblem
  rfl

section Fits

variable (hfits : literal.offset + 2 * literal.text.utf8ByteSize ≤ Offset.limit)

include hfits

/-- The characters reported of a content, moved into the source. -/
theorem invalid_ordered :
    ((invalidOffsets literal.content).map fun offset =>
        (⟨.invalidKeyChar, literal.toSource offset⟩ : Problem)).Pairwise
      fun first second => first.offset < second.offset := by
  rw [List.pairwise_map]
  refine (State.invalid_ascending 0 .between literal.content).imp_of_mem ?_
  intro first second _ hsecond hlt
  have hinside := (State.invalid_bounds hsecond).2
  rw [Nat.zero_add] at hinside
  exact toSource_lt hfits hlt (Nat.le_of_lt hinside)

theorem problems_ordered (h : literal.text ≠ "") :
    literal.scan.problems.Pairwise fun first second => first.offset ≤ second.offset := by
  have hlow : literal.offset ≤ Offset.limit := Nat.le_trans (Nat.le_add_right _ _) hfits
  have hlater := (invalid_ordered hfits).imp fun h => Nat.le_of_lt h
  rw [problems_scan h]
  rcases literal.malformed_cases with hnone | hone
  · rwa [hnone, List.nil_append]
  · rw [hone, List.singleton_append, List.pairwise_cons]
    refine ⟨?_, hlater⟩
    intro problem hproblem
    obtain ⟨offset, -, rfl⟩ := List.mem_map.1 hproblem
    exact le_toSource hlow offset

theorem entries_ordered :
    literal.scan.entries.Pairwise fun first second => first.valueEnd < second.keyOffset := by
  rw [entries_scan, List.pairwise_map]
  refine (rawEntries_inOrder literal.content).imp_of_mem ?_
  intro first second _ hsecond hlt
  have hsecond := fits_of_mem_rawEntries hsecond
  exact toSource_lt hfits hlt (Nat.le_trans hsecond.key.start_le hsecond.key.stop_le)

end Fits

theorem scan_ordered (literal : TagLiteral)
    (hfits : literal.offset + 2 * literal.text.utf8ByteSize ≤ Offset.limit) :
    literal.scan.Ordered := by
  by_cases hempty : literal.text = ""
  · constructor <;> simp [TagLiteral.scan, hempty]
  constructor
  case problems => exact problems_ordered hfits hempty
  case malformed_first =>
    intro index problem hindex hkind
    exact index_of_malformed hempty hindex hkind
  case invalid =>
    rw [filter_problems_scan hempty]
    exact invalid_ordered hfits
  case entry =>
    intro entry hentry
    rw [entries_scan] at hentry
    obtain ⟨raw, hraw, rfl⟩ := List.mem_map.1 hentry
    have hraw := fits_of_mem_rawEntries hraw
    constructor
    · exact literal.toSource_mono (Nat.le_trans hraw.key.start_le hraw.key_le_value)
    · exact literal.toSource_mono hraw.value_le
  case entries => exact entries_ordered hfits

/-- A literal that does not unquote, with an empty value, a space in a key and a quote between
two pairs. -/
theorem scan_ordered_brokenLiteral :
    3 + 2 * "\"a:\"\" b c:\"d\"\" \"".utf8ByteSize ≤ Offset.limit ∧
      TagLiteral.scan ⟨"\"a:\"\" b c:\"d\"\" \"", 3⟩ =
        ⟨[⟨"a", "", 4, 6, 6, true, false, true⟩, ⟨"b c", "d", 9, 14, 15, true, false, true⟩],
          [⟨.malformedLiteral, 3⟩, ⟨.invalidKeyChar, 10⟩]⟩ ∧
      (TagLiteral.scan ⟨"\"a:\"\" b c:\"d\"\" \"", 3⟩).Ordered := by
  refine ⟨by decide, by decide +kernel, ?_⟩
  exact scan_ordered _ (by decide)

end TagLiteral

end TagLint
