import TagLint.Lint.Validate
import TagLint.Proofs.Tag.RoundTrip

/-!
# The language of clean tags

Which tags pass without a problem? Exactly the texts of written tags whose keys are allowed
and whose values are not empty (`CleanContent`).

One direction is the round trip: scanning such a text finds its pairs, and no pair breaks a
rule. For the other, `CleanUpTo` says what the text read so far looks like in each state as
long as nothing has been reported and every finished entry was clean. Each row of the
transition table preserves it, and at the end of the content only the states between pairs
and after a closing quote leave nothing open.
-/

namespace TagLint

/-- Every pair of the tag has an allowed key and a value. -/
def WrittenTag.Clean (allowed : AllowList) (tag : WrittenTag) : Prop :=
  ∀ pair ∈ tag.pairs, pair.value ≠ [] ∧ allowed.contains (String.ofList pair.key) = true

/-- The contents of clean tags. -/
def CleanContent (allowed : AllowList) (content : List Char) : Prop :=
  ∃ tag : WrittenTag, tag.text = content ∧ tag.Clean allowed

/-- An entry of a content that breaks no rule. -/
structure RawEntry.Clean (allowed : AllowList) (content : List Char) (raw : RawEntry) : Prop where
  key_ne : raw.key.cut content ≠ ""
  allowed : allowed.contains (raw.key.cut content) = true
  value_ne : raw.value.cut content ≠ ""
  quoted : raw.quoted = true
  terminated : raw.unterminated = false
  separated : raw.separated = true

/-- Validation is silent exactly on clean entries. -/
theorem problems_eq_nil_iff (allowed : AllowList) (content : List Char)
    (toSource : Offset → Offset) (raw : RawEntry) :
    (Entry.ofRaw content toSource raw).problems allowed = [] ↔ raw.Clean allowed content := by
  simp only [Entry.problems, List.append_eq_nil_iff, Entry.keyProblems, Entry.valueProblems,
    Entry.quoteProblems, Entry.separatorProblems, Entry.ofRaw]
  constructor
  · rintro ⟨hkey, hvalue⟩
    by_cases hkeyEmpty : raw.key.cut content = ""
    · simp [hkeyEmpty] at hkey
    by_cases hvalueEmpty : raw.value.cut content = ""
    · simp [hvalueEmpty] at hvalue
    cases hallowed : allowed.contains (raw.key.cut content) with
    | false => simp [hkeyEmpty, hallowed] at hkey
    | true =>
      cases hquoted : raw.quoted <;> cases hopen : raw.unterminated <;>
        cases hseparated : raw.separated <;>
        simp [hvalueEmpty, hquoted, hopen, hseparated] at hvalue
      exact ⟨hkeyEmpty, hallowed, hvalueEmpty, hquoted, hopen, hseparated⟩
  · intro h
    simp [h.key_ne, h.allowed, h.value_ne, h.quoted, h.terminated, h.separated]

/-- A check is silent when scanning reports nothing and every entry is clean. -/
theorem check_scanWith_eq_nil_iff (allowed : AllowList) (content : List Char)
    (toSource : Offset → Offset) :
    (scanWith toSource content).check allowed = [] ↔
      invalidOffsets content = [] ∧ ∀ raw ∈ rawEntries content, raw.Clean allowed content := by
  simp only [ScanResult.check, scanWith, validate, List.append_eq_nil_iff, List.map_eq_nil_iff,
    List.flatMap_eq_nil_iff, List.mem_map, forall_exists_index, and_imp,
    forall_apply_eq_imp_iff₂, problems_eq_nil_iff]

/-! ## Clean text up to a state -/

/-- A clean tag that the next pair may follow. -/
def CleanFront (allowed : AllowList) (front : List Char) : Prop :=
  ∃ tag : WrittenTag, tag.text = front ∧ tag.last? = none ∧ tag.Clean allowed

namespace CleanFront

variable {allowed : AllowList} {front : List Char}

theorem nil : CleanFront allowed [] :=
  ⟨⟨0, [], none⟩, rfl, rfl, by simp [WrittenTag.Clean, WrittenTag.pairs]⟩

/-- A space goes to the gap before it, or to the indent if there is no pair yet. -/
theorem space (h : CleanFront allowed front) : CleanFront allowed (front ++ [' ']) := by
  obtain ⟨⟨indent, gapped, last?⟩, rfl, rfl, hclean⟩ := h
  rcases List.eq_nil_or_concat gapped with rfl | ⟨init, ⟨pair, gap⟩, rfl⟩
  · refine ⟨⟨indent + 1, [], none⟩, ?_, rfl, hclean⟩
    simp [WrittenTag.text, gappedText, List.replicate_succ']
  · refine ⟨⟨indent, init ++ [(pair, { gap with spaces := gap.spaces + 1 })], none⟩, ?_, rfl, ?_⟩
    · simp [WrittenTag.text, gappedText, Gap.text, List.replicate_succ']
    · simpa [WrittenTag.Clean, WrittenTag.pairs] using hclean

/-- A clean pair closes the tag. -/
theorem close (h : CleanFront allowed front) (pair : WrittenPair) (hvalue : pair.value ≠ [])
    (hkey : allowed.contains (String.ofList pair.key) = true) :
    ∃ tag : WrittenTag, tag.text = front ++ pair.text ∧ tag.last? = some pair ∧
      tag.Clean allowed := by
  obtain ⟨⟨indent, gapped, last?⟩, rfl, rfl, hclean⟩ := h
  refine ⟨⟨indent, gapped, some pair⟩, by simp [WrittenTag.text], rfl, ?_⟩
  intro other hother
  rcases List.mem_append.1 hother with hother | hother
  · exact hclean other (by simpa [WrittenTag.pairs] using hother)
  · obtain rfl : other = pair := by simpa using hother
    exact ⟨hvalue, hkey⟩

/-- The character after the last pair opens a gap. -/
theorem swallow {tag : WrittenTag} {pair : WrittenPair} {c : Char} (hclean : tag.Clean allowed)
    (hlast : tag.last? = some pair) (hc : Text.isControl c = false) :
    CleanFront allowed (tag.text ++ [c]) := by
  obtain ⟨indent, gapped, last?⟩ := tag
  obtain rfl : last? = some pair := hlast
  refine ⟨⟨indent, gapped ++ [(pair, ⟨c, 0, hc⟩)], none⟩, ?_, rfl, ?_⟩
  · simp [WrittenTag.text, gappedText, Gap.text]
  · simpa [WrittenTag.Clean, WrittenTag.pairs] using hclean

end CleanFront

/-- What stands between a key and the text of its quoted value. -/
def quoteMark (separated : Bool) : List Char := if separated then [':', '"'] else ['"']

/-- The text read so far, as long as nothing was reported and every entry was clean. An
unquoted value is followed no further, since its entry will not be clean. -/
inductive CleanUpTo (allowed : AllowList) : List Char → State → Prop
  | between {front : List Char} : CleanFront allowed front → CleanUpTo allowed front .between
  | key {front key : List Char} : CleanFront allowed front → (∀ c ∈ key, isKeyChar c = true) →
      CleanUpTo allowed (front ++ key) (.key (Text.byteLength front))
  | separated {front key : List Char} : CleanFront allowed front →
      (∀ c ∈ key, isKeyChar c = true) →
      CleanUpTo allowed (front ++ (key ++ [':']))
        (.separated ⟨⟨Text.byteLength front, Text.byteLength front + Text.byteLength key⟩, true⟩)
  | opened {front key : List Char} {separated : Bool} : CleanFront allowed front →
      (∀ c ∈ key, isKeyChar c = true) →
      CleanUpTo allowed (front ++ (key ++ quoteMark separated))
        (.opened
          ⟨⟨Text.byteLength front, Text.byteLength front + Text.byteLength key⟩, separated⟩)
  | value {front key value : List Char} {separated : Bool} {escapes : UInt32} :
      CleanFront allowed front → (∀ c ∈ key, isKeyChar c = true) → value ≠ [] →
      (∀ c rest, value = c :: rest → Text.isControl c = false) → QuotesEscaped value →
      Tracks escapes value →
      CleanUpTo allowed (front ++ (key ++ (quoteMark separated ++ value)))
        (.value ⟨⟨Text.byteLength front, Text.byteLength front + Text.byteLength key⟩, separated⟩
          (Text.byteLength (front ++ (key ++ quoteMark separated))) true escapes)
  | bare {before : List Char} {pair : Pending} {start : Offset} {escapes : UInt32} :
      CleanUpTo allowed before (.value pair start false escapes)
  | closed {tag : WrittenTag} {pair : WrittenPair} : tag.Clean allowed →
      tag.last? = some pair → CleanUpTo allowed tag.text .closed

namespace CleanUpTo

variable {allowed : AllowList}

/-- Closing the quote of a clean entry closes a clean tag. -/
theorem closeQuote {front key value rest : List Char} {separated : Bool}
    (hfront : CleanFront allowed front) (hkey : ∀ c ∈ key, isKeyChar c = true)
    (hhead : ∀ c rest, value = c :: rest → Text.isControl c = false)
    (hescaped : QuotesEscaped value) (heven : backslashesAtEnd value % 2 = 0)
    (hclean : RawEntry.Clean allowed
      (front ++ (key ++ (quoteMark separated ++ value)) ++ rest)
      ⟨⟨Text.byteLength front, Text.byteLength front + Text.byteLength key⟩,
        ⟨Text.byteLength (front ++ (key ++ quoteMark separated)),
          Text.byteLength (front ++ (key ++ (quoteMark separated ++ value)))⟩,
        true, false, separated⟩) :
    CleanUpTo allowed (front ++ (key ++ (quoteMark separated ++ value)) ++ ['"']) .closed := by
  obtain ⟨hkeyNe, hallowed, hvalueNe, -, -, hseparated⟩ := hclean
  obtain rfl : separated = true := hseparated
  have hkeyCut : Span.cut ⟨Text.byteLength front, Text.byteLength front + Text.byteLength key⟩
      (front ++ (key ++ (quoteMark true ++ value)) ++ rest) = String.ofList key :=
    Span.cut_of_spells ⟨front, quoteMark true ++ (value ++ rest), by simp, rfl⟩
  have hvalueCut : Span.cut ⟨Text.byteLength (front ++ (key ++ quoteMark true)),
      Text.byteLength (front ++ (key ++ (quoteMark true ++ value)))⟩
      (front ++ (key ++ (quoteMark true ++ value)) ++ rest) = String.ofList value :=
    Span.cut_of_spells ⟨front ++ (key ++ quoteMark true), rest, by simp, by simp [Nat.add_assoc]⟩
  rw [hkeyCut] at hkeyNe hallowed
  rw [hvalueCut] at hvalueNe
  have hkeyNil : key ≠ [] := fun h => hkeyNe (by simp [h])
  have hvalueNil : value ≠ [] := fun h => hvalueNe (by simp [h])
  obtain ⟨tag, htext, hlast, htag⟩ :=
    hfront.close ⟨key, value, hkeyNil, hkey, hhead, hescaped, heven⟩ hvalueNil hallowed
  have hwhole : front ++ (key ++ (quoteMark true ++ value)) ++ ['"'] = tag.text := by
    simp [htext, WrittenPair.text, quoteMark]
  rw [hwhole]
  exact .closed htag hlast

/-- **Step.** A character that reports nothing and finishes only clean entries keeps the
text clean. -/
theorem step {before : List Char} {state : State} (h : CleanUpTo allowed before state)
    (c : Char) (rest : List Char)
    (hvalid : (state.step (Text.byteLength before) c).invalid = false)
    (hentry : ∀ raw ∈ (state.step (Text.byteLength before) c).entries,
      raw.Clean allowed (before ++ c :: rest)) :
    CleanUpTo allowed (before ++ [c]) (state.step (Text.byteLength before) c).next := by
  have hmove := State.step_moves (Text.byteLength before) c state
  generalize state.step (Text.byteLength before) c = result at hvalid hentry hmove
  cases hmove with
  | control => simp at hvalid
  | space hc =>
    obtain ⟨hfront⟩ := h
    subst hc
    exact .between hfront.space
  | emptyKey hc =>
    obtain ⟨hfront⟩ := h
    subst hc
    -- An empty key passes for now: its entry is refused when it is finished.
    exact @separated allowed before [] hfront (by simp)
  | strayQuote => simp at hvalid
  | keyStart hc =>
    obtain ⟨hfront⟩ := h
    exact @key allowed before [c] hfront (by simpa using hc)
  | keySpace => simp at hvalid
  | keyMore hc =>
    cases h with
    | key hfront hkey =>
      rw [List.append_assoc]
      apply CleanUpTo.key hfront
      intro d hd
      rcases List.mem_append.1 hd with hd | hd
      · exact hkey d hd
      · obtain rfl : d = c := by simpa using hd
        exact hc
  | keyColon hc =>
    cases h with
    | key hfront hkey =>
      subst hc
      rw [List.append_assoc, Text.byteLength_append]
      exact .separated hfront hkey
  | keyQuote hc =>
    cases h with
    | key hfront hkey =>
      subst hc
      rw [List.append_assoc, Text.byteLength_append]
      exact @opened allowed _ _ false hfront hkey
  | blankValue =>
    -- An empty value is never clean, so no such entry was finished.
    exact absurd (Span.cut_point _ _) (hentry _ (List.mem_singleton_self _)).value_ne
  | quoteOpens hc =>
    cases h with
    | separated hfront hkey =>
      subst hc
      simpa [quoteMark] using @opened allowed _ _ true hfront hkey
  | bareStart =>
    -- Nothing is kept of an unquoted value, whose entry is never clean.
    exact .bare
  | quotesMeet => exact absurd (Span.cut_point _ _) (hentry _ (List.mem_singleton_self _)).value_ne
  | quotedStart hc hquote =>
    cases h with
    | @opened front key separated hfront hkey =>
      have hescaped : QuotesEscaped ([] ++ [c]) :=
        quotesEscaped_concat.2 ⟨quotesEscaped_nil, fun h => absurd h hquote⟩
      have hhead : ∀ d rest, [c] = d :: rest → Text.isControl d = false := by
        intro d rest h
        obtain ⟨rfl, -⟩ := List.cons.inj h
        exact hc
      simpa using @value allowed front key [c] separated _ hfront hkey (by simp) hhead
        hescaped (tracks_nextEscapes tracks_nil c)
  | quoteCloses hc heven =>
    cases h with
    | @value front key value separated escapes hfront hkey hne hhead hescaped htracks =>
      subst hc
      exact closeQuote hfront hkey hhead hescaped (htracks.even_iff.1 heven)
        (hentry _ (List.mem_singleton_self _))
  | bareEnds => exact absurd (hentry _ (List.mem_singleton_self _)).quoted Bool.false_ne_true
  | @valueMore pair start quoted escapes hquote =>
    cases h with
    | bare => exact .bare
    | @value front key value separated _ hfront hkey hne hhead hescaped htracks =>
      have hodd : c = '"' → backslashesAtEnd value % 2 = 1 := by
        intro hc
        have hnotEven := mt htracks.even_iff.2 (hquote rfl hc)
        omega
      have hhead' : ∀ d rest, value ++ [c] = d :: rest → Text.isControl d = false := by
        intro d rest h
        obtain ⟨first, more, rfl⟩ := List.exists_cons_of_ne_nil hne
        obtain ⟨rfl, -⟩ := List.cons.inj h
        exact hhead first more rfl
      have hmore := @CleanUpTo.value allowed front key (value ++ [c]) separated _ hfront hkey
        (by simp) hhead' (quotesEscaped_concat.2 ⟨hescaped, hodd⟩) (tracks_nextEscapes htracks c)
      simpa using hmore
  | swallow hc =>
    cases h with
    | closed hclean hlast => exact .between (CleanFront.swallow hclean hlast hc)

/-- When the content ends, only a clean tag leaves nothing open that is reported. -/
theorem finish {content : List Char} {state : State} (h : CleanUpTo allowed content state)
    (hentry : ∀ raw ∈ state.finish? (Text.byteLength content), raw.Clean allowed content) :
    CleanContent allowed content := by
  cases h with
  | between hfront =>
    obtain ⟨tag, htext, -, hclean⟩ := hfront
    exact ⟨tag, htext, hclean⟩
  | closed hclean => exact ⟨_, rfl, hclean⟩
  | key => exact absurd (Span.cut_point _ _) (hentry _ rfl).value_ne
  | separated => exact absurd (Span.cut_point _ _) (hentry _ rfl).value_ne
  | opened => exact absurd (Span.cut_point _ _) (hentry _ rfl).value_ne
  | value => exact absurd (hentry _ rfl).terminated Bool.false_ne_true.symm
  | bare => exact absurd (hentry _ rfl).quoted Bool.false_ne_true

/-- **Run.** From a clean text on, a rest that is scanned in silence completes a clean tag. -/
theorem run {before rest : List Char} {state : State} (h : CleanUpTo allowed before state)
    (hvalid : (state.run (Text.byteLength before) rest).invalid = [])
    (hentries : ∀ raw ∈ state.entriesFrom (Text.byteLength before) rest,
      raw.Clean allowed (before ++ rest)) :
    CleanContent allowed (before ++ rest) := by
  induction rest generalizing before state with
  | nil =>
    rw [List.append_nil] at hentries ⊢
    refine h.finish fun raw hraw => hentries raw ?_
    exact Option.mem_toList.2 hraw
  | cons c rest ih =>
    simp only [State.run, State.entriesFrom, ← Text.byteLength_concat, List.mem_append]
      at hvalid hentries
    cases hinvalid : (state.step (Text.byteLength before) c).invalid with
    | true => simp [hinvalid] at hvalid
    | false =>
      have hnext := h.step c rest hinvalid fun raw hraw =>
        hentries raw (.inl hraw)
      rw [List.append_cons before c rest] at hentries ⊢
      exact ih hnext (by simpa [hinvalid] using hvalid) fun raw hraw =>
        hentries raw (.inr hraw)

end CleanUpTo

/-! ## Silence and the language -/

/-- Scanning and validating a content is silent exactly on the language. -/
theorem check_scanWith_eq_nil_iff_clean (allowed : AllowList) (content : List Char)
    (toSource : Offset → Offset) :
    (scanWith toSource content).check allowed = [] ↔ CleanContent allowed content := by
  rw [check_scanWith_eq_nil_iff]
  constructor
  · rintro ⟨hvalid, hentries⟩
    rw [State.rawEntries_eq_entriesFrom] at hentries
    have hempty : CleanUpTo allowed [] .between := .between CleanFront.nil
    exact hempty.run hvalid hentries
  · rintro ⟨tag, rfl, hclean⟩
    refine ⟨tag.invalidOffsets_text, ?_⟩
    intro raw hraw
    rw [WrittenTag.rawEntries_text, List.mem_map] at hraw
    obtain ⟨⟨offset, pair⟩, hplaced, rfl⟩ := hraw
    have hpair : pair ∈ tag.pairs := by
      rw [← tag.map_placed]
      exact List.mem_map_of_mem hplaced
    obtain ⟨hvalue, hkey⟩ := hclean pair hpair
    have hparts := WrittenPair.ofRaw_raw (WrittenTag.spells_of_mem_placed hplaced) id
    have hkeyCut := congrArg Entry.key hparts
    have hvalueCut := congrArg Entry.value hparts
    simp only [Entry.ofRaw, WrittenPair.entry] at hkeyCut hvalueCut
    refine ⟨?_, ?_, ?_, rfl, rfl, rfl⟩
    · simpa [hkeyCut] using pair.key_ne_nil
    · rw [hkeyCut]
      exact hkey
    · simpa [hvalueCut] using hvalue

/-- **Soundness and completeness.** A literal passes without a problem exactly when it is
empty, or it unquotes and its content is a clean tag. -/
theorem check_eq_nil_iff (literal : TagLiteral) (allowed : AllowList) :
    literal.check allowed = [] ↔
      literal.text = "" ∨
        ∃ unquoted, Literal.unquote literal.text.toList = .ok unquoted ∧
          CleanContent allowed unquoted.content := by
  unfold TagLiteral.check TagLiteral.scan
  by_cases hempty : literal.text = ""
  · simp [hempty, ScanResult.check, validate]
  · rw [if_neg (by simpa using hempty)]
    cases hunquote : Literal.unquote literal.text.toList with
    | error error =>
      simp [Literal.prepare, hunquote, Literal.trimmed, ScanResult.check, hempty]
    | ok unquoted =>
      simp [Literal.prepare, hunquote, hempty, check_scanWith_eq_nil_iff_clean]

end TagLint
