import TagLint.Proofs.Tag.Roles

/-!
# Nothing in a tag is lost or counted twice

`scan_accounts` accounts for every character of a content. The keys and values that scanning
returns stand where their offsets say, in places that do not overlap. A control character
lies in a value or is reported; what is reported is a control character, a space in a key or
a stray quote, each once; and what is neither in an entry nor reported is punctuation or the
one character that a closing quote lets the scanner skip.
-/

namespace TagLint

/-- Where the key of an entry stands in a content that begins at `base`. -/
def Entry.keySpan (base : Offset) (entry : Entry) : Span :=
  ⟨entry.keyOffset - base, entry.keyOffset - base + entry.key.utf8ByteSize⟩

/-- Where the value of an entry stands in a content that begins at `base`. -/
def Entry.valueSpan (base : Offset) (entry : Entry) : Span :=
  ⟨entry.valueOffset - base, entry.valueEnd - base⟩

/-- No key and no value of an entry has a byte of the span. -/
def ScanResult.Outside (result : ScanResult) (base : Offset) (span : Span) : Prop :=
  ∀ entry ∈ result.entries,
    (entry.keySpan base).Avoids span ∧ (entry.valueSpan base).Avoids span

/-- A scan result accounts for every character of the content. -/
structure ScanResult.Accounts (content : List Char) (base : Offset) (result : ScanResult) :
    Prop where
  keys : ∀ entry ∈ result.entries,
    (entry.keySpan base).bytes content = Text.utf8 entry.key.toList
  values : ∀ entry ∈ result.entries,
    (entry.valueSpan base).bytes content = Text.utf8 entry.value.toList
  disjoint :
    (result.entries.flatMap fun entry => [entry.keySpan base, entry.valueSpan base]).Pairwise
      Span.Avoids
  control : ∀ before c after, content = before ++ c :: after → Text.isControl c = true →
    result.entries.countP (fun entry => (entry.valueSpan base).Holds (.ofChar before c)) = 1 ∨
      result.problems.count ⟨.invalidKeyChar, base + Text.byteLength before⟩ = 1
  reported : ∀ problem ∈ result.problems, ∃ before c after,
    content = before ++ c :: after ∧
      problem = ⟨.invalidKeyChar, base + Text.byteLength before⟩ ∧
      ((Text.isControl c = true ∧
          ∀ entry ∈ result.entries, (entry.valueSpan base).Avoids (.ofChar before c)) ∨
        (c = ' ' ∧ ∃ entry ∈ result.entries, (entry.keySpan base).Holds (.ofChar before c)) ∨
        (c = '"' ∧ result.Outside base (.ofChar before c)))
  reported_once : (result.problems.map Problem.offset).Nodup
  unreported : ∀ before c after, content = before ++ c :: after →
    result.Outside base (.ofChar before c) →
    (∀ problem ∈ result.problems, problem.offset ≠ base + Text.byteLength before) →
    c = ' ' ∨ c = ':' ∨ c = '"' ∨ Text.byteLength before ∈ skippedOffsets content
  skipped : (skippedOffsets content).length ≤ result.entries.countP (·.quoted)

/-! ## The roles of a character -/

section Position

variable {before : List Char} {c : Char}

theorem inValue_or_invalid_of_control (before : List Char) (hc : Text.isControl c = true) :
    (stepAt before c).next.inValue = true ∨ (stepAt before c).invalid = true := by
  cases hstate : (stateAfter before).inValue with
  | false =>
    right
    rw [stepAt, State.step_of_control hc hstate]
    rfl
  | true =>
    left
    have hmove := moves_stepAt before c
    generalize stepAt before c = result at hmove ⊢
    generalize stateAfter before = state at hstate hmove
    cases hmove with
    | control _ h => simp [h] at hstate
    | quoteCloses h | bareEnds h =>
      subst h
      simp [Text.isControl] at hc
    | valueMore => rfl
    | _ => simp [State.inValue] at hstate

/-- The three ways for a character to be reported. -/
theorem role_of_invalid (h : (stepAt before c).invalid = true) :
    (Text.isControl c = true ∧ (stepAt before c).next.inValue = false) ∨
      (c = ' ' ∧ (stepAt before c).next.inKey = true) ∨
      (c = '"' ∧ (stepAt before c).next.inKey = false ∧
        (stepAt before c).next.inValue = false) := by
  have hmove := moves_stepAt before c
  generalize stepAt before c = result at h hmove ⊢
  generalize stateAfter before = state at hmove
  cases hmove with
  | control hc hstate => exact .inl ⟨hc, hstate⟩
  | strayQuote hc => exact .inr (.inr ⟨hc, rfl, rfl⟩)
  | keySpace hc => exact .inr (.inl ⟨hc, rfl⟩)
  | _ => simp at h

/-- A character that is neither reported nor part of an entry. -/
theorem role_of_silent (hvalid : (stepAt before c).invalid = false)
    (hkey : (stepAt before c).next.inKey = false)
    (hvalue : (stepAt before c).next.inValue = false) :
    c = ' ' ∨ c = ':' ∨ c = '"' ∨ (stateAfter before = .closed ∧ Text.isControl c = false) := by
  have hmove := moves_stepAt before c
  generalize stepAt before c = result at hvalid hkey hvalue hmove
  generalize stateAfter before = state at hmove ⊢
  cases hmove with
  | space hc | blankValue hc | bareEnds hc => exact .inl hc
  | emptyKey hc | keyColon hc => exact .inr (.inl hc)
  | keyQuote hc | quoteOpens hc | quotesMeet hc | quoteCloses hc => exact .inr (.inr (.inl hc))
  | swallow hc => exact .inr (.inr (.inr ⟨rfl, hc⟩))
  | control | strayQuote | keySpace => simp at hvalid
  | keyStart | keyMore => simp [State.inKey] at hkey
  | bareStart | quotedStart | valueMore => simp [State.inValue] at hvalue

end Position

/-! ## Scan results in terms of spans -/

/-- Inside a content that fits the limit no offset saturates. -/
theorem scan_of_fits {content : List Char} {base : Nat}
    (hfits : base + Text.byteLength content ≤ Offset.limit) :
    scan content base =
      ⟨(rawEntries content).map (Entry.ofRaw content (base + ·)),
        (invalidOffsets content).map fun offset => ⟨.invalidKeyChar, base + offset⟩⟩ := by
  have hshift {offset : Nat} (h : offset ≤ Text.byteLength content) :
      Offset.shift base offset = base + offset := Offset.shift_of_le (by omega)
  have hentries : (rawEntries content).map (Entry.ofRaw content (Offset.shift base)) =
      (rawEntries content).map (Entry.ofRaw content (base + ·)) := by
    apply List.map_congr_left
    intro raw hraw
    have hinside := fits_of_mem_rawEntries hraw
    have hvalue := Nat.le_trans hinside.value_le hinside.inside
    have hkey := Nat.le_trans hinside.key.start_le hinside.key.stop_le
    simp only [Entry.ofRaw, hshift hkey, hshift hvalue, hshift hinside.inside]
  have hproblems : (invalidOffsets content).map
        (fun offset => (⟨.invalidKeyChar, Offset.shift base offset⟩ : Problem)) =
      (invalidOffsets content).map fun offset => ⟨.invalidKeyChar, base + offset⟩ := by
    apply List.map_congr_left
    intro offset hoffset
    have hinside := (State.invalid_bounds hoffset).2
    rw [hshift (by omega)]
  simp only [scan, scanWith, Problem.relocate_mk, hentries, hproblems]

section Raw

variable {content : List Char} {raw : RawEntry}

theorem keySpan_ofRaw (h : raw.Fits content) (base : Offset) :
    (Entry.ofRaw content (base + ·) raw).keySpan base = raw.key := by
  obtain ⟨text, hspells⟩ := h.key
  have hstop : raw.key.stop = raw.key.start + Text.byteLength text := by
    obtain ⟨before, after, -, hspan⟩ := hspells
    rw [hspan]
  have hsize : (raw.key.cut content).utf8ByteSize = Text.byteLength text := by
    rw [Span.cut_of_spells hspells, ← Text.byteLength_toList, String.toList_ofList]
  simp [Entry.keySpan, Entry.ofRaw, hsize, ← hstop]

theorem valueSpan_ofRaw (base : Offset) :
    (Entry.ofRaw content (base + ·) raw).valueSpan base = raw.value := by
  simp [Entry.valueSpan, Entry.ofRaw]

/-- Entries in order have disjoint spans. -/
theorem spans_disjoint (content : List Char) :
    ((rawEntries content).flatMap fun raw => [raw.key, raw.value]).Pairwise Span.Avoids := by
  rw [List.pairwise_flatMap]
  constructor
  · intro raw hraw
    have hfits := fits_of_mem_rawEntries hraw
    simpa using Span.avoids_of_le hfits.key_le_value
  · refine (rawEntries_inOrder content).imp_of_mem ?_
    intro first second hfirst hsecond horder
    have hone := fits_of_mem_rawEntries hfirst
    have htwo := fits_of_mem_rawEntries hsecond
    have hlast {span : Span} (h : span ∈ [first.key, first.value]) :
        span.stop ≤ first.value.stop := by
      obtain rfl | rfl : span = first.key ∨ span = first.value := by simpa using h
      · exact Nat.le_trans hone.key_le_value hone.value_le
      · exact Nat.le_refl _
    have hnext {span : Span} (h : span ∈ [second.key, second.value]) :
        second.key.start ≤ span.start := by
      obtain rfl | rfl : span = second.key ∨ span = second.value := by simpa using h
      · exact Nat.le_refl _
      · exact Nat.le_trans htwo.key.start_le htwo.key_le_value
    intro span hspan other hother
    exact Span.avoids_of_le
      (Nat.le_trans (hlast hspan) (Nat.le_trans (Nat.le_of_lt horder) (hnext hother)))

end Raw

section Position

variable {before after : List Char} {c : Char} {raw : RawEntry}

/-- Outside the values is where no value covers the first byte. -/
theorem value_avoids_of_not_inValue (h : (stepAt before c).next.inValue = false)
    (hraw : raw ∈ rawEntries (before ++ c :: after)) : raw.value.Avoids (.ofChar before c) := by
  have hcount := countP_value_covers before c after
  rw [h, if_neg Bool.false_ne_true, List.countP_eq_zero] at hcount
  rw [Span.avoids_ofChar_iff (fits_of_mem_rawEntries hraw).value]
  simpa using hcount raw hraw

theorem key_avoids_of_not_inKey (h : (stepAt before c).next.inKey = false)
    (hraw : raw ∈ rawEntries (before ++ c :: after)) : raw.key.Avoids (.ofChar before c) := by
  have hcount := countP_key_covers before c after
  rw [h, if_neg Bool.false_ne_true, List.countP_eq_zero] at hcount
  rw [Span.avoids_ofChar_iff (.inl (fits_of_mem_rawEntries hraw).key)]
  simpa using hcount raw hraw

theorem countP_value_holds :
    (rawEntries (before ++ c :: after)).countP (fun raw => raw.value.Holds (.ofChar before c)) =
      if (stepAt before c).next.inValue then 1 else 0 := by
  rw [← countP_value_covers before c after]
  apply List.countP_congr
  intro raw hraw
  simpa using Span.holds_ofChar_iff (fits_of_mem_rawEntries hraw).value

theorem exists_key_holds (after : List Char) (h : (stepAt before c).next.inKey = true) :
    ∃ raw ∈ rawEntries (before ++ c :: after), raw.key.Holds (.ofChar before c) := by
  have hcount := countP_key_covers before c after
  rw [h, if_pos rfl] at hcount
  obtain ⟨raw, hraw, hcovers⟩ := List.countP_pos_iff.1 (hcount ▸ Nat.one_pos)
  refine ⟨raw, hraw, ?_⟩
  rw [Span.holds_ofChar_iff (.inl (fits_of_mem_rawEntries hraw).key)]
  exact of_decide_eq_true hcovers

theorem not_inKey_of_avoids
    (h : ∀ raw ∈ rawEntries (before ++ c :: after), raw.key.Avoids (.ofChar before c)) :
    (stepAt before c).next.inKey = false := by
  cases hstate : (stepAt before c).next.inKey with
  | false => rfl
  | true =>
    obtain ⟨raw, hraw, hholds⟩ := exists_key_holds after hstate
    have hcuts := (fits_of_mem_rawEntries hraw).key
    exact absurd (Span.covers_of_holds hholds)
      ((Span.avoids_ofChar_iff (.inl hcuts)).1 (h raw hraw))

theorem not_inValue_of_avoids
    (h : ∀ raw ∈ rawEntries (before ++ c :: after), raw.value.Avoids (.ofChar before c)) :
    (stepAt before c).next.inValue = false := by
  cases hstate : (stepAt before c).next.inValue with
  | false => rfl
  | true =>
    have hcount := countP_value_covers before c after
    rw [hstate, if_pos rfl] at hcount
    obtain ⟨raw, hraw, hcovers⟩ := List.countP_pos_iff.1 (hcount ▸ Nat.one_pos)
    have hcuts := (fits_of_mem_rawEntries hraw).value
    exact absurd (of_decide_eq_true hcovers) ((Span.avoids_ofChar_iff hcuts).1 (h raw hraw))

end Position

/-! ## The account -/

/-- Moving the offsets of the problems keeps how often each is reported. -/
theorem count_shifted (offsets : List Offset) (base offset : Nat) :
    (offsets.map fun offset => (⟨.invalidKeyChar, base + offset⟩ : Problem)).count
        ⟨.invalidKeyChar, base + offset⟩ = offsets.count offset := by
  rw [List.count, List.countP_map, List.count]
  apply List.countP_congr
  intro other _
  simp [Nat.add_left_cancel_iff]

section Account

variable {content before after : List Char} {c : Char} {base : Nat}

theorem exists_raw_of_mem (hfits : base + Text.byteLength content ≤ Offset.limit) {entry : Entry}
    (h : entry ∈ (scan content base).entries) :
    ∃ raw ∈ rawEntries content, entry = Entry.ofRaw content (base + ·) raw ∧
      entry.keySpan base = raw.key ∧ entry.valueSpan base = raw.value := by
  rw [scan_of_fits hfits] at h
  obtain ⟨raw, hraw, rfl⟩ := List.mem_map.1 h
  exact ⟨raw, hraw, rfl, keySpan_ofRaw (fits_of_mem_rawEntries hraw) base, valueSpan_ofRaw base⟩

theorem exists_mem_of_raw (hfits : base + Text.byteLength content ≤ Offset.limit) {raw : RawEntry}
    (h : raw ∈ rawEntries content) :
    ∃ entry ∈ (scan content base).entries,
      entry.keySpan base = raw.key ∧ entry.valueSpan base = raw.value := by
  rw [scan_of_fits hfits]
  exact ⟨_, List.mem_map_of_mem h, keySpan_ofRaw (fits_of_mem_rawEntries h) base,
    valueSpan_ofRaw base⟩

theorem scan_spans_disjoint (hfits : base + Text.byteLength content ≤ Offset.limit) :
    ((scan content base).entries.flatMap
      fun entry => [entry.keySpan base, entry.valueSpan base]).Pairwise Span.Avoids := by
  have hspans : ((rawEntries content).map (Entry.ofRaw content (base + ·))).flatMap
        (fun entry => [entry.keySpan base, entry.valueSpan base]) =
      (rawEntries content).flatMap fun raw => [raw.key, raw.value] := by
    rw [List.flatMap_map, List.flatMap_def, List.flatMap_def]
    apply congrArg
    apply List.map_congr_left
    intro raw hraw
    rw [keySpan_ofRaw (fits_of_mem_rawEntries hraw), valueSpan_ofRaw]
  rw [scan_of_fits hfits, hspans]
  exact spans_disjoint content

/-- A control character lies in one value or is reported once. -/
theorem control_in_value_or_reported
    (hfits : base + Text.byteLength (before ++ c :: after) ≤ Offset.limit)
    (hc : Text.isControl c = true) :
    (scan (before ++ c :: after) base).entries.countP
        (fun entry => (entry.valueSpan base).Holds (.ofChar before c)) = 1 ∨
      (scan (before ++ c :: after) base).problems.count
        ⟨.invalidKeyChar, base + Text.byteLength before⟩ = 1 := by
  rw [scan_of_fits hfits, List.countP_map, count_shifted, count_invalidOffsets]
  simp only [Function.comp_def, valueSpan_ofRaw, countP_value_holds]
  rcases inValue_or_invalid_of_control before hc with h | h
  · exact .inl (if_pos h)
  · exact .inr (if_pos h)

/-- A reported character is a control character, a space in a key or a stray quote. -/
theorem reported_role (hfits : base + Text.byteLength (before ++ c :: after) ≤ Offset.limit)
    (h : (stepAt before c).invalid = true) :
    (Text.isControl c = true ∧ ∀ entry ∈ (scan (before ++ c :: after) base).entries,
        (entry.valueSpan base).Avoids (.ofChar before c)) ∨
      (c = ' ' ∧ ∃ entry ∈ (scan (before ++ c :: after) base).entries,
        (entry.keySpan base).Holds (.ofChar before c)) ∨
      (c = '"' ∧ (scan (before ++ c :: after) base).Outside base (.ofChar before c)) := by
  rcases role_of_invalid h with ⟨hc, hvalue⟩ | ⟨hc, hkey⟩ | ⟨hc, hkey, hvalue⟩
  · refine .inl ⟨hc, ?_⟩
    intro entry hentry
    obtain ⟨raw, hraw, -, -, hspan⟩ := exists_raw_of_mem hfits hentry
    rw [hspan]
    exact value_avoids_of_not_inValue hvalue hraw
  · obtain ⟨raw, hraw, hholds⟩ := exists_key_holds after hkey
    obtain ⟨entry, hentry, hspan, -⟩ := exists_mem_of_raw hfits hraw
    exact .inr (.inl ⟨hc, entry, hentry, hspan ▸ hholds⟩)
  · refine .inr (.inr ⟨hc, ?_⟩)
    intro entry hentry
    obtain ⟨raw, hraw, -, hkeySpan, hvalueSpan⟩ := exists_raw_of_mem hfits hentry
    rw [hkeySpan, hvalueSpan]
    exact ⟨key_avoids_of_not_inKey hkey hraw, value_avoids_of_not_inValue hvalue hraw⟩

/-- A character outside the entries that is not reported is punctuation or skipped. -/
theorem unreported_role (hfits : base + Text.byteLength (before ++ c :: after) ≤ Offset.limit)
    (houtside : (scan (before ++ c :: after) base).Outside base (.ofChar before c))
    (hsilent : (stepAt before c).invalid = false) :
    c = ' ' ∨ c = ':' ∨ c = '"' ∨
      Text.byteLength before ∈ skippedOffsets (before ++ c :: after) := by
  have hraws : ∀ raw ∈ rawEntries (before ++ c :: after),
      raw.key.Avoids (.ofChar before c) ∧ raw.value.Avoids (.ofChar before c) := by
    intro raw hraw
    obtain ⟨entry, hentry, hkey, hvalue⟩ := exists_mem_of_raw hfits hraw
    rw [← hkey, ← hvalue]
    exact houtside entry hentry
  have hkey := not_inKey_of_avoids fun raw hraw => (hraws raw hraw).1
  have hvalue := not_inValue_of_avoids fun raw hraw => (hraws raw hraw).2
  rcases role_of_silent hsilent hkey hvalue with hc | hc | hc | ⟨hclosed, hc⟩
  · exact .inl hc
  · exact .inr (.inl hc)
  · exact .inr (.inr (.inl hc))
  · have hskipped : 0 + Text.byteLength before ∈ skippedOffsets (before ++ c :: after) :=
      State.mem_skipped_of_closed hclosed hc
    rw [Nat.zero_add] at hskipped
    exact .inr (.inr (.inr hskipped))

theorem mem_problems_of_invalid
    (hfits : base + Text.byteLength (before ++ c :: after) ≤ Offset.limit)
    (h : (stepAt before c).invalid = true) :
    ⟨.invalidKeyChar, base + Text.byteLength before⟩ ∈
      (scan (before ++ c :: after) base).problems := by
  have hcount := count_invalidOffsets before c after
  rw [h, if_pos rfl] at hcount
  rw [scan_of_fits hfits]
  exact List.mem_map_of_mem (List.count_pos_iff.1 (hcount ▸ Nat.one_pos))

theorem scan_accounts (hfits : base + Text.byteLength content ≤ Offset.limit) :
    (scan content base).Accounts content base where
  keys := by
    intro entry hentry
    obtain ⟨raw, hraw, rfl, hspan, -⟩ := exists_raw_of_mem hfits hentry
    rw [hspan]
    exact Span.bytes_eq_utf8_cut (.inl (fits_of_mem_rawEntries hraw).key)
  values := by
    intro entry hentry
    obtain ⟨raw, hraw, rfl, -, hspan⟩ := exists_raw_of_mem hfits hentry
    rw [hspan]
    exact Span.bytes_eq_utf8_cut (fits_of_mem_rawEntries hraw).value
  disjoint := scan_spans_disjoint hfits
  control := by
    rintro before c after rfl hc
    exact control_in_value_or_reported hfits hc
  reported := by
    intro problem hproblem
    rw [scan_of_fits hfits] at hproblem
    obtain ⟨offset, hoffset, rfl⟩ := List.mem_map.1 hproblem
    obtain ⟨before, c, after, rfl, hposition, hinvalid⟩ := State.exists_of_mem_invalid hoffset
    rw [Nat.zero_add] at hposition
    subst hposition
    exact ⟨before, c, after, rfl, rfl, reported_role hfits hinvalid⟩
  reported_once := by
    rw [scan_of_fits hfits, List.map_map, List.nodup_iff_pairwise_ne, List.pairwise_map]
    refine (State.invalid_ascending 0 .between content).imp ?_
    intro first second hlt heq
    exact absurd (Nat.add_left_cancel heq) (Nat.ne_of_lt hlt)
  unreported := by
    rintro before c after rfl houtside hsilent
    apply unreported_role hfits houtside
    rw [← Bool.not_eq_true]
    intro hinvalid
    exact absurd rfl (hsilent _ (mem_problems_of_invalid hfits hinvalid))
  skipped := by
    rw [scan_of_fits hfits, List.countP_map, State.rawEntries_eq_entriesFrom]
    exact State.length_skipped_le 0 .between content

/-- A stray quote, a space in a key, a control character in a value and one outside, and a
comma skipped after a closing quote. -/
theorem scan_accounts_malformedTag :
    7 + Text.byteLength "\" a b:\"x\t\",\n".toList ≤ Offset.limit ∧
      (scan "\" a b:\"x\t\",\n".toList 7).Accounts "\" a b:\"x\t\",\n".toList 7 :=
  ⟨by decide, scan_accounts (by decide)⟩

end Account

end TagLint
