import Mathlib.Data.List.Forall2
import TagLint.Command.Run
import TagLint.Proofs.Literal.Length
import TagLint.Proofs.Tag.Boundaries

/-!
# A literal and its content

A content can be checked by itself, with offsets of its own, or as part of a literal, with
offsets moved into the source while entries and problems are made. `check_relocated` compares
the two runs problem by problem: they are `Relocated` to each other, of one kind and placed at
the same offset up to the move, or, for a missing separator, one byte before it.

Two results follow. A literal gets the problems of its content, moved
(`check_literal_eq_content`), and they stay close to the literal (`check_offset_bounds`).
-/

namespace TagLint

/-- A problem of a content and the same problem in the source. A missing separator is
reported one byte before its value, and that byte is counted after the move. -/
inductive Relocated (content : List Char) (toSource : Offset → Offset) : Problem → Problem → Prop
  | here {kind : ProblemKind} {offset : Offset} : kind ≠ .missingSeparator →
      offset ≤ Text.byteLength content →
      Relocated content toSource ⟨kind, offset⟩ ⟨kind, toSource offset⟩
  | behind {offset : Offset} : 0 < offset → offset ≤ Text.byteLength content →
      Relocated content toSource ⟨.missingSeparator, offset - 1⟩
        ⟨.missingSeparator, toSource offset - 1⟩

section Content

variable {content : List Char} {toSource : Offset → Offset}

theorem Relocated.kind_eq {first second : Problem} (h : Relocated content toSource first second) :
    second.kind = first.kind := by
  cases h <;> rfl

/-- Only a value that holds some text follows a missing separator, and it does not stand at
the very start. -/
theorem value_start_pos {raw : RawEntry} (hplace : ValuePlace content raw.value)
    (hvalue : raw.value.cut content ≠ "") : 0 < raw.value.start := by
  have hempty (h : raw.value.start = raw.value.stop) : 0 < raw.value.start :=
    absurd (Span.cut_eq_empty h content) hvalue
  generalize raw.value = value at hplace hempty
  cases hplace with
  | text _ hannounced => exact hannounced.pos
  | point => exact hempty rfl
  | split hsplit =>
    obtain ⟨before, c, d, after, -, -, -, -, rfl⟩ := hsplit
    exact Nat.succ_pos _

theorem relocated_one {kind : ProblemKind} {offset : Offset} (hkind : kind ≠ .missingSeparator)
    (hoffset : offset ≤ Text.byteLength content) :
    List.Forall₂ (Relocated content toSource) [⟨kind, offset⟩] [⟨kind, toSource offset⟩] :=
  .cons (.here hkind hoffset) .nil

section Entry

variable {raw : RawEntry}

theorem keyProblems_relocated (allowed : AllowList) (h : raw.Fits content) :
    List.Forall₂ (Relocated content toSource) ((Entry.ofRaw content id raw).keyProblems allowed)
      ((Entry.ofRaw content toSource raw).keyProblems allowed) := by
  have hstart := Nat.le_trans h.key.start_le h.key.stop_le
  by_cases hempty : raw.key.cut content = ""
  · simpa [Entry.keyProblems, Entry.ofRaw, hempty] using
      @relocated_one content toSource .emptyKey _ (by simp) hstart
  · by_cases hallowed : allowed.contains (raw.key.cut content) = true
    · simp [Entry.keyProblems, Entry.ofRaw, hempty, hallowed]
    · simpa [Entry.keyProblems, Entry.ofRaw, hempty, hallowed] using
        @relocated_one content toSource (.unknownKey (raw.key.cut content)) _ (by simp) hstart

theorem quoteProblems_relocated (h : raw.Fits content) :
    List.Forall₂ (Relocated content toSource) (Entry.ofRaw content id raw).quoteProblems
      (Entry.ofRaw content toSource raw).quoteProblems := by
  have hstart := Nat.le_trans h.value_le h.inside
  cases hquoted : raw.quoted with
  | false =>
    simpa [Entry.quoteProblems, Entry.ofRaw, hquoted] using
      @relocated_one content toSource .unquotedValue _ (by simp) hstart
  | true =>
    cases hopen : raw.unterminated with
    | false => simp [Entry.quoteProblems, Entry.ofRaw, hquoted, hopen]
    | true =>
      simpa [Entry.quoteProblems, Entry.ofRaw, hquoted, hopen] using
        @relocated_one content toSource .unterminatedQuote _ (by simp) h.inside

theorem separatorProblems_relocated (hpos : 0 < raw.value.start)
    (hstart : raw.value.start ≤ Text.byteLength content) :
    List.Forall₂ (Relocated content toSource) (Entry.ofRaw content id raw).separatorProblems
      (Entry.ofRaw content toSource raw).separatorProblems := by
  cases hseparated : raw.separated with
  | true => simp [Entry.separatorProblems, Entry.ofRaw, hseparated]
  | false =>
    have hbehind := @Relocated.behind content toSource _ hpos hstart
    simpa [Entry.separatorProblems, Entry.ofRaw, hseparated] using hbehind

theorem problems_relocated (allowed : AllowList) (h : raw ∈ rawEntries content) :
    List.Forall₂ (Relocated content toSource) ((Entry.ofRaw content id raw).problems allowed)
      ((Entry.ofRaw content toSource raw).problems allowed) := by
  have hfits := fits_of_mem_rawEntries h
  have hstart := Nat.le_trans hfits.value_le hfits.inside
  apply List.rel_append (keyProblems_relocated allowed hfits)
  by_cases hempty : raw.value.cut content = ""
  · simpa [Entry.valueProblems, Entry.ofRaw, hempty] using
      @relocated_one content toSource .emptyValue _ (by simp) hstart
  · have hpos := value_start_pos (valuePlace_of_mem_rawEntries h) hempty
    have hboth := List.rel_append (@quoteProblems_relocated content toSource raw hfits)
      (separatorProblems_relocated hpos hstart)
    have hvalue (move : Offset → Offset) : (Entry.ofRaw content move raw).valueProblems =
        (Entry.ofRaw content move raw).quoteProblems ++
          (Entry.ofRaw content move raw).separatorProblems := by
      simp [Entry.valueProblems, Entry.ofRaw, hempty]
    rw [hvalue, hvalue]
    exact hboth

end Entry

theorem check_relocated (allowed : AllowList) (content : List Char) (toSource : Offset → Offset) :
    List.Forall₂ (Relocated content toSource) ((scanWith id content).check allowed)
      ((scanWith toSource content).check allowed) := by
  have hscan : List.Forall₂ (Relocated content toSource) (scanWith id content).problems
      (scanWith toSource content).problems := by
    simp only [scanWith, Problem.relocate_mk, List.forall₂_map_left_iff,
      List.forall₂_map_right_iff, List.forall₂_same]
    intro offset hoffset
    have hinside := (State.invalid_bounds hoffset).2
    rw [Nat.zero_add] at hinside
    exact .here (by simp) (Nat.le_of_lt hinside)
  have hentries : List.Forall₂ (Relocated content toSource)
      (validate allowed (scanWith id content).entries)
      (validate allowed (scanWith toSource content).entries) := by
    simp only [validate, scanWith, List.flatMap_map]
    refine List.rel_flatMap (List.forall₂_same.2 fun raw hraw => ?_) fun _ _ h => h
    exact problems_relocated allowed hraw
  exact List.rel_append hscan hentries

/-- At the start of its source a content keeps its own offsets. -/
theorem checkContent_eq (allowed : AllowList) (hlimit : Text.byteLength content ≤ Offset.limit) :
    checkContent allowed content = (scanWith id content).check allowed := by
  have hzero : (fun offset : Offset => 0 + offset) = id := funext Nat.zero_add
  have hscan : scan content 0 = scanWith id content := by
    rw [scan_of_fits (by rwa [Nat.zero_add]), hzero]
    simp [scanWith]
  rw [checkContent, hscan]

end Content

/-! ## Literals -/

namespace TagLiteral

/-- Where an offset of the content lies in the source. -/
def toSource (literal : TagLiteral) (offset : Offset) : Offset :=
  Offset.shift literal.offset ((Literal.prepare literal.text.toList).literalOffset offset)

/-- The problem of a literal that does not unquote. -/
def malformed (literal : TagLiteral) : List Problem :=
  match Literal.unquote literal.text.toList with
  | .ok _ => []
  | .error _ => [⟨.malformedLiteral, literal.offset⟩]

/-- A literal is checked as its content is, with offsets moved into the source. -/
theorem check_eq (literal : TagLiteral) (allowed : AllowList) (h : literal.text ≠ "") :
    literal.check allowed = literal.malformed ++
      (scanWith literal.toSource (Literal.prepare literal.text.toList).content).check allowed := by
  have hempty : literal.text.isEmpty = false := by simpa using h
  unfold TagLiteral.check TagLiteral.scan malformed toSource
  rw [hempty]
  cases hunquote : Literal.unquote literal.text.toList with
  | ok unquoted => simp [Literal.prepare, hunquote, ScanResult.check]
  | error error => simp [Literal.prepare, hunquote, Literal.trimmed, ScanResult.check]

/-- What a literal that unquotes is told is told by its content alone. -/
theorem kinds_eq_of_unquote {literal : TagLiteral} {unquoted : Literal.Unquoted}
    (h : Literal.unquote literal.text.toList = .ok unquoted) (allowed : AllowList) :
    (literal.check allowed).map Problem.kind =
      ((scanWith id unquoted.content).check allowed).map Problem.kind := by
  have hne : literal.text ≠ "" := by
    intro hempty
    rw [hempty] at h
    cases h
  have hcontent : (Literal.prepare literal.text.toList).content = unquoted.content := by
    simp only [Literal.prepare, h]
  have hmalformed : literal.malformed = [] := by simp only [malformed, h]
  rw [literal.check_eq allowed hne, hmalformed, List.nil_append, hcontent]
  have hkinds := (check_relocated allowed unquoted.content literal.toSource).imp
    fun _ _ hmoved => hmoved.kind_eq.symm
  rwa [← List.forall₂_map_right_iff (f := Problem.kind), ← List.forall₂_map_left_iff,
    List.forall₂_eq_eq_eq, eq_comm] at hkinds

end TagLiteral

theorem check_literal_eq_content (allowed : AllowList) :
    (∀ literal : TagLiteral, literal.text ≠ "" →
      literal.offset + 2 * literal.text.utf8ByteSize ≤ Offset.limit →
      let prepared := Literal.prepare literal.text.toList
      ∃ problems, literal.check allowed = literal.malformed ++ problems ∧
        List.Forall₂
          (fun bare problem => problem.kind = bare.kind ∧ (bare.kind ≠ .missingSeparator →
            problem.offset = literal.offset + prepared.literalOffset bare.offset))
          (tagProblems allowed true (String.ofList prepared.content)) problems) ∧
      ∀ (first second : TagLiteral) (one two : Literal.Unquoted),
        Literal.unquote first.text.toList = .ok one →
        Literal.unquote second.text.toList = .ok two → one.content = two.content →
        (first.check allowed).map Problem.kind = (second.check allowed).map Problem.kind := by
  constructor
  · intro literal hne hfits prepared
    have hsize := Text.byteLength_toList literal.text
    have hcontent : Text.byteLength prepared.content ≤ literal.text.utf8ByteSize :=
      hsize ▸ Literal.byteLength_prepare_le literal.text.toList
    have hbare : tagProblems allowed true (String.ofList prepared.content) =
        (scanWith id prepared.content).check allowed := by
      have hlimit : Text.byteLength prepared.content ≤ Offset.limit := by lia
      rw [tagProblems, if_pos rfl, String.toList_ofList, checkContent_eq allowed hlimit]
    refine ⟨_, literal.check_eq allowed hne, ?_⟩
    rw [hbare]
    refine (check_relocated allowed prepared.content literal.toSource).imp ?_
    intro bare problem hmoved
    refine ⟨hmoved.kind_eq, ?_⟩
    intro hkind
    cases hmoved with
    | behind => exact absurd rfl hkind
    | @here kind offset _ hoffset =>
      -- No offset of the literal saturates, not even past a replacement character.
      have hinside := Literal.literalOffset_le hoffset
      have hgrowth := Literal.growth_le literal.text.toList
      exact Offset.shift_of_le (by lia)
  · intro first second one two hone htwo heq
    rw [TagLiteral.kinds_eq_of_unquote hone, TagLiteral.kinds_eq_of_unquote htwo, heq]

/-- A literal of fifteen bytes with escaped quotes and, in the end, a byte that is not UTF-8.
Its content is `k"v"`, a space and a replacement character. -/
def escapedQuotes : TagLiteral := ⟨"\"k\\x22v\\\" \\xff\"", 7⟩

theorem check_literal_eq_content_escapedQuotes :
    escapedQuotes.text ≠ "" ∧
      escapedQuotes.offset + 2 * escapedQuotes.text.utf8ByteSize ≤ Offset.limit ∧
      tagProblems .empty true "k\"v\" \uFFFD" = [⟨.unknownKey "k", 0⟩, ⟨.missingSeparator, 1⟩,
        ⟨.unknownKey "\uFFFD", 5⟩, ⟨.emptyValue, 8⟩] ∧
      escapedQuotes.check .empty = [⟨.unknownKey "k", 8⟩, ⟨.missingSeparator, 12⟩,
        ⟨.unknownKey "\uFFFD", 17⟩, ⟨.emptyValue, 23⟩] ∧
      (∃ problems, escapedQuotes.check .empty = escapedQuotes.malformed ++ problems ∧
        List.Forall₂
          (fun bare problem => problem.kind = bare.kind ∧ (bare.kind ≠ .missingSeparator →
            problem.offset = 7 +
              (Literal.prepare escapedQuotes.text.toList).literalOffset bare.offset))
          (tagProblems .empty true
            (String.ofList (Literal.prepare escapedQuotes.text.toList).content)) problems) ∧
      Literal.unquote "`id:\"a\"`".toList = .ok ⟨"id:\"a\"".toList, ⟨[]⟩⟩ ∧
      Literal.unquote "\"id:\\\"a\\\"\"".toList = .ok ⟨"id:\"a\"".toList, ⟨[⟨4, 1⟩, ⟨6, 2⟩]⟩⟩ ∧
      (TagLiteral.check .empty ⟨"`id:\"a\"`", 3⟩).map Problem.kind =
        (TagLiteral.check .empty ⟨"\"id:\\\"a\\\"\"", 5⟩).map Problem.kind := by
  have hraw : Literal.unquote "`id:\"a\"`".toList = .ok ⟨"id:\"a\"".toList, ⟨[]⟩⟩ := by
    decide +kernel
  have hinterpreted : Literal.unquote "\"id:\\\"a\\\"\"".toList =
      .ok ⟨"id:\"a\"".toList, ⟨[⟨4, 1⟩, ⟨6, 2⟩]⟩⟩ := by
    decide +kernel
  obtain ⟨hmoved, hkinds⟩ := check_literal_eq_content .empty
  exact ⟨by decide, by decide, by decide +kernel, by decide +kernel,
    hmoved escapedQuotes (by decide) (by decide), hraw, hinterpreted,
    hkinds ⟨"`id:\"a\"`", 3⟩ ⟨"\"id:\\\"a\\\"\"", 5⟩ _ _ hraw hinterpreted rfl⟩

/-! ## How far problems lie from their literal -/

theorem exists_relocated_of_mem {content : List Char} {toSource : Offset → Offset}
    {first second : List Problem} (h : List.Forall₂ (Relocated content toSource) first second)
    {problem : Problem} (hproblem : problem ∈ second) :
    ∃ bare, Relocated content toSource bare problem := by
  induction h with
  | nil => cases hproblem
  | cons hmoved _ ih =>
    rcases List.mem_cons.1 hproblem with rfl | hlater
    · exact ⟨_, hmoved⟩
    · exact ih hlater

section Bounds

variable {literal : TagLiteral} {offset : Offset}

theorem TagLiteral.toSource_le
    (h : offset ≤ Text.byteLength (Literal.prepare literal.text.toList).content) :
    literal.toSource offset ≤
      literal.offset + literal.text.utf8ByteSize + Literal.growth literal.text.toList := by
  have hinside := Literal.literalOffset_le h
  have hshift := Offset.shift_le literal.offset
    ((Literal.prepare literal.text.toList).literalOffset offset)
  rw [Text.byteLength_toList] at hinside
  rw [TagLiteral.toSource]
  lia

theorem TagLiteral.le_toSource (h : literal.offset ≤ Offset.limit) (offset : Offset) :
    literal.offset ≤ literal.toSource offset :=
  Nat.le_min.2 ⟨Nat.le_add_right _ _, h⟩

/-- Only the start of the content can lie at the start of the literal. -/
theorem TagLiteral.lt_toSource (h : literal.offset < Offset.limit) (hpos : 0 < offset) :
    literal.offset < literal.toSource offset := by
  have hliteral := Literal.clamp_le_literalOffset (Literal.prepare literal.text.toList) offset
  have hclamp : 1 ≤ Offset.clamp offset := Nat.le_min.2 ⟨hpos, by decide⟩
  exact Nat.le_min.2 ⟨Nat.add_le_add_left (Nat.le_trans hclamp hliteral) _, h⟩

theorem check_offset_bounds (literal : TagLiteral) (allowed : AllowList)
    (hfits : literal.offset + literal.text.utf8ByteSize ≤ Offset.limit) :
    ∀ problem ∈ literal.check allowed,
      literal.offset ≤ problem.offset ∧
      problem.offset ≤
        literal.offset + literal.text.utf8ByteSize + Literal.growth literal.text.toList ∧
      (Literal.Lossless literal.text.toList →
        problem.offset ≤ literal.offset + literal.text.utf8ByteSize) := by
  intro problem hproblem
  have hbounds : literal.offset ≤ problem.offset ∧ problem.offset ≤
      literal.offset + literal.text.utf8ByteSize + Literal.growth literal.text.toList := by
    by_cases hempty : literal.text = ""
    · simp [TagLiteral.check, TagLiteral.scan, hempty, ScanResult.check, validate] at hproblem
    · rw [literal.check_eq allowed hempty] at hproblem
      rcases List.mem_append.1 hproblem with hmalformed | hmoved
      · have hat : problem.offset = literal.offset := by
          unfold TagLiteral.malformed at hmalformed
          split at hmalformed
          · cases hmalformed
          · rw [List.mem_singleton.1 hmalformed]
        lia
      · obtain ⟨bare, hmoved⟩ := exists_relocated_of_mem (check_relocated _ _ _) hmoved
        have hsize : 0 < literal.text.utf8ByteSize :=
          Nat.pos_of_ne_zero (mt String.utf8ByteSize_eq_zero_iff.1 hempty)
        cases hmoved with
        | here _ hoffset =>
          exact ⟨TagLiteral.le_toSource (by lia) _, TagLiteral.toSource_le hoffset⟩
        | behind hpos hoffset =>
          have hlow := @TagLiteral.lt_toSource literal _ (by lia) hpos
          have hhigh := TagLiteral.toSource_le hoffset
          exact ⟨Nat.le_sub_one_of_lt hlow, Nat.le_trans (Nat.sub_le _ _) hhigh⟩
  refine ⟨hbounds.1, hbounds.2, ?_⟩
  intro hlossless
  rw [Literal.growth_eq_zero hlossless] at hbounds
  exact hbounds.2

end Bounds

/-- The last problem of the first literal lies past its end, at 22, as far as one replacement
character allows. The second literal needs none. -/
theorem check_offset_bounds_escapedQuotes :
    7 + escapedQuotes.text.utf8ByteSize ≤ Offset.limit ∧
      ⟨.emptyValue, 23⟩ ∈ escapedQuotes.check .empty ∧
      7 ≤ 23 ∧ 23 ≤ 7 + escapedQuotes.text.utf8ByteSize +
        Literal.growth escapedQuotes.text.toList ∧
      Literal.growth escapedQuotes.text.toList = 2 ∧
      Literal.Lossless "\"k\\u00e9\"".toList ∧
      ⟨.emptyValue, 15⟩ ∈ TagLiteral.check .empty ⟨"\"k\\u00e9\"", 7⟩ ∧
      15 ≤ 7 + "\"k\\u00e9\"".utf8ByteSize := by
  have hpast : ⟨.emptyValue, 23⟩ ∈ escapedQuotes.check .empty := by decide +kernel
  have hinside : ⟨.emptyValue, 15⟩ ∈ TagLiteral.check .empty ⟨"\"k\\u00e9\"", 7⟩ := by
    decide +kernel
  have hlossless : Literal.Lossless "\"k\\u00e9\"".toList := by
    unfold Literal.Lossless
    decide +kernel
  have hbounds := check_offset_bounds escapedQuotes .empty (by decide) _ hpast
  exact ⟨by decide, hpast, hbounds.1, hbounds.2.1, by decide +kernel, hlossless, hinside,
    (check_offset_bounds ⟨"\"k\\u00e9\"", 7⟩ .empty (by decide) _ hinside).2.2 hlossless⟩

/-- A replacement character at the end of a content pushes the end past the literal. -/
theorem not_forall_check_offset_le :
    ¬ ∀ (literal : TagLiteral) (allowed : AllowList),
      literal.offset + literal.text.utf8ByteSize ≤ Offset.limit →
      ∀ problem ∈ literal.check allowed, literal.offset ≤ problem.offset ∧
        problem.offset ≤ literal.offset + literal.text.utf8ByteSize := by
  intro h
  have hpast : ⟨.emptyValue, 7⟩ ∈ TagLiteral.check .empty ⟨"\"\\xff\"", 0⟩ := by decide +kernel
  have hbounds := h ⟨"\"\\xff\"", 0⟩ .empty (by decide) _ hpast
  exact absurd hbounds.2 (by decide)

end TagLint
