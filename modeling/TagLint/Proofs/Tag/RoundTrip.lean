import TagLint.Proofs.Tag.Written

/-!
# Well-formed tags survive scanning

Scanning the text of a written tag finds its pairs again, each where it was placed, and
nothing to complain about. The proof follows the text: a run over a key, over a value with
the parity of its backslashes, over a pair, over a gap, and by induction over the list of
pairs.
-/

namespace TagLint

/-- The spans of a pair whose key stands at `offset` in the content. -/
def WrittenPair.raw (offset : Offset) (pair : WrittenPair) : RawEntry where
  key := ⟨offset, offset + Text.byteLength pair.key⟩
  value :=
    if pair.value = [] then .point (offset + Text.byteLength pair.key + 1)
    else ⟨offset + Text.byteLength pair.key + 2,
      offset + Text.byteLength pair.key + 2 + Text.byteLength pair.value⟩
  quoted := true
  unterminated := false
  separated := true

/-! ## Runs over the parts of a tag -/

namespace State

theorem run_of_advance {offset : Offset} {c : Char} {state next : State}
    (h : state.step offset c = .advance next) (cs : List Char) :
    state.run offset (c :: cs) = next.run (offset + c.utf8Size) cs := by
  simp [run, h, Step.advance]

theorem run_of_finish {offset : Offset} {c : Char} {state next : State} {entry : RawEntry}
    (h : state.step offset c = .finish next entry) :
    state.run offset [c] = ⟨[entry], [], next⟩ := by
  simp [run, h, Step.finish]

/-- A stretch that reports nothing only moves the scanner on. -/
theorem run_append_of_silent {offset : Offset} {state next : State} {cs : List Char}
    (h : state.run offset cs = ⟨[], [], next⟩) (ds : List Char) :
    state.run offset (cs ++ ds) = next.run (offset + Text.byteLength cs) ds := by
  simp [run_append, h]

theorem run_append_of_entries {offset : Offset} {state next : State} {cs : List Char}
    {entries : List RawEntry} (h : state.run offset cs = ⟨entries, [], next⟩) (ds : List Char) :
    state.run offset (cs ++ ds) =
      let rest := next.run (offset + Text.byteLength cs) ds
      ⟨entries ++ rest.entries, rest.invalid, rest.last⟩ := by
  simp [run_append, h]

theorem run_spaces (offset : Offset) (n : Nat) :
    State.between.run offset (List.replicate n ' ') = ⟨[], [], .between⟩ := by
  induction n generalizing offset with
  | zero => rfl
  | succ n ih =>
    have hstep : State.between.step offset ' ' = .advance .between := rfl
    rw [List.replicate_succ, run_of_advance hstep, ih]

theorem run_key (offset start : Offset) {key : List Char}
    (hkey : ∀ c ∈ key, isKeyChar c = true) :
    (State.key start).run offset key = ⟨[], [], .key start⟩ := by
  induction key generalizing offset with
  | nil => rfl
  | cons c key ih =>
    obtain ⟨hc, hspace, hcolon, hquote⟩ := isKeyChar_iff.1 (hkey c List.mem_cons_self)
    have hstep : (State.key start).step offset c = .advance (.key start) := by
      simp [step_of_not_control hc, advance, hspace, hcolon, hquote]
    rw [run_of_advance hstep]
    exact ih (offset + c.utf8Size) fun d hd => hkey d (List.mem_cons_of_mem c hd)

/-- A character that does not close the value lengthens it. -/
theorem step_value {escapes : UInt32} {value : List Char} {c : Char}
    (htracks : Tracks escapes value) (hescaped : QuotesEscaped (value ++ [c]))
    (offset start : Offset) (pair : Pending) :
    (State.value pair start true escapes).step offset c =
      .advance (.value pair start true (nextEscapes escapes c)) := by
  have hodd := (quotesEscaped_concat.1 hescaped).2
  by_cases hback : c = '\\'
  · simp [step, inValue, advance, nextEscapes, hback]
  · by_cases hquote : c = '"'
    · have heven : ¬ escapes % 2 = 0 := by
        rw [htracks.even_iff, hodd hquote]
        decide
      simp [step, inValue, advance, nextEscapes, hquote, heven]
    · simp [step, inValue, advance, nextEscapes, hback, hquote]

/-- A value runs to its end inside the quotes. The part `read` is what came before: the
parity of the counter speaks of both together. -/
theorem run_value {escapes : UInt32} {read value : List Char} (htracks : Tracks escapes read)
    (hescaped : QuotesEscaped (read ++ value)) (offset start : Offset) (pair : Pending) :
    ∃ last, Tracks last (read ++ value) ∧
      (State.value pair start true escapes).run offset value =
        ⟨[], [], .value pair start true last⟩ := by
  induction value generalizing escapes read offset with
  | nil => exact ⟨escapes, by simpa using htracks, rfl⟩
  | cons c value ih =>
    rw [List.append_cons] at hescaped ⊢
    obtain ⟨last, hlast, hrun⟩ :=
      ih (tracks_nextEscapes htracks c) hescaped (offset + c.utf8Size)
    refine ⟨last, hlast, ?_⟩
    rw [run_of_advance (step_value htracks hescaped.of_append offset start pair), hrun]

/-- From its opening quote on, a value that its quotes can hold is one entry. -/
theorem run_quoted (written : WrittenPair) (offset : Offset) (pair : Pending) :
    (State.opened pair).run offset (written.value ++ ['"']) =
      ⟨[pair.close (if written.value = [] then .point (offset - 1)
        else ⟨offset, offset + Text.byteLength written.value⟩) true false], [], .closed⟩ := by
  cases hvalue : written.value with
  | nil => exact run_of_finish rfl
  | cons c rest =>
    have hescaped : QuotesEscaped ([c] ++ rest) := by
      simpa [hvalue] using written.value_escaped
    have hquote : c ≠ '"' := by
      -- No backslash stands before the first character, so a quote there is not escaped.
      rintro rfl
      have := hescaped [] rest rfl
      simp at this
    have hfirst : (State.opened pair).step offset c =
        .advance (.value pair offset true (nextEscapes 0 c)) := by
      rw [step_of_not_control (written.value_head c rest hvalue)]
      by_cases hback : c = '\\' <;> simp [advance, startValue, nextEscapes, hquote, hback]
    obtain ⟨last, hlast, hrun⟩ := run_value (tracks_nextEscapes tracks_nil c) hescaped
      (offset + c.utf8Size) offset pair
    have heven : last % 2 = 0 := by
      rw [hlast.even_iff]
      simpa [hvalue] using written.value_even
    have hclose (stop : Offset) : (State.value pair offset true last).step stop '"' =
        .finish .closed (pair.close ⟨offset, stop⟩ true false) := by
      simp [step, inValue, advance, heven]
    rw [List.cons_append, run_of_advance hfirst, run_append_of_silent hrun,
      run_of_finish (hclose _)]
    simp [Nat.add_assoc]

theorem run_pair (written : WrittenPair) (offset : Offset) :
    State.between.run offset written.text = ⟨[written.raw offset], [], .closed⟩ := by
  obtain ⟨c, key, hkey⟩ := List.exists_cons_of_ne_nil written.key_ne_nil
  have hplain := written.key_plain
  rw [hkey] at hplain
  obtain ⟨hc, hspace, hcolon, hquote⟩ := isKeyChar_iff.1 (hplain c List.mem_cons_self)
  have hfirst : State.between.step offset c = .advance (.key offset) := by
    simp [step_of_not_control hc, advance, hspace, hcolon, hquote]
  have hopen (stop : Offset) :
      (State.key offset).run stop (':' :: '"' :: (written.value ++ ['"'])) =
        (State.opened ⟨⟨offset, stop⟩, true⟩).run (stop + 2) (written.value ++ ['"']) := by
    have hcolon : (State.key offset).step stop ':' =
        .advance (.separated ⟨⟨offset, stop⟩, true⟩) := rfl
    have hmark : (State.separated ⟨⟨offset, stop⟩, true⟩).step (stop + 1) '"' =
        .advance (.opened ⟨⟨offset, stop⟩, true⟩) := rfl
    rw [run_of_advance hcolon]
    exact run_of_advance hmark _
  have hrest := run_key (offset + c.utf8Size) offset
    fun d hd => hplain d (List.mem_cons_of_mem c hd)
  rw [WrittenPair.text, hkey, List.cons_append, run_of_advance hfirst,
    run_append_of_silent hrest, hopen, run_quoted]
  simp only [WrittenPair.raw, Pending.close, hkey, Text.byteLength_cons,
    Nat.add_assoc]
  rfl

theorem run_gap (gap : Gap) (offset : Offset) :
    State.closed.run offset gap.text = ⟨[], [], .between⟩ := by
  have hstep : State.closed.step offset gap.filler = .advance .between :=
    step_of_not_control gap.filler_ok .closed
  rw [Gap.text, run_of_advance hstep, run_spaces]

theorem run_gapped (pairs : List (WrittenPair × Gap)) (offset : Offset) :
    State.between.run offset (gappedText pairs) =
      ⟨(WrittenTag.placeGapped offset pairs).map fun (start, pair) => pair.raw start, [],
        .between⟩ := by
  induction pairs generalizing offset with
  | nil => rfl
  | cons head rest ih =>
    obtain ⟨pair, gap⟩ := head
    have hhead : State.between.run offset (pair.text ++ gap.text) =
        ⟨[pair.raw offset], [], .between⟩ := by
      rw [run_append_of_entries (run_pair pair offset), run_gap]
      rfl
    rw [gappedText_cons, run_append_of_entries hhead, ih]
    rfl

end State

/-! ## The whole tag -/

namespace WrittenTag

theorem run_text (tag : WrittenTag) :
    State.between.run 0 tag.text =
      ⟨tag.placed.map fun (offset, pair) => pair.raw offset, [],
        if tag.last?.isSome then .closed else .between⟩ := by
  rw [text, State.run_append_of_silent (State.run_spaces 0 tag.indent), byteLength_spaces,
    Nat.zero_add, State.run_append_of_entries (State.run_gapped tag.gapped tag.indent)]
  cases hlast : tag.last? with
  | none => simp [State.run, placed, hlast]
  | some pair => simp [State.run_pair, placed, hlast]

theorem rawEntries_text (tag : WrittenTag) :
    rawEntries tag.text = tag.placed.map fun (offset, pair) => pair.raw offset := by
  cases hlast : tag.last? <;> simp [rawEntries, run_text, State.finish?, hlast]

@[simp] theorem invalidOffsets_text (tag : WrittenTag) : invalidOffsets tag.text = [] := by
  rw [invalidOffsets, run_text]

end WrittenTag

/-- The parts of a pair stand where its raw entry says. -/
theorem WrittenPair.ofRaw_raw {pair : WrittenPair} {content : List Char} {offset : Offset}
    (h : (⟨offset, offset + Text.byteLength pair.text⟩ : Span).Spells content pair.text)
    (toSource : Offset → Offset) :
    Entry.ofRaw content toSource (pair.raw offset) =
      { pair.entry offset with
        keyOffset := toSource (pair.entry offset).keyOffset
        valueOffset := toSource (pair.entry offset).valueOffset
        valueEnd := toSource (pair.entry offset).valueEnd } := by
  obtain ⟨before, after, rfl, hspan⟩ := h
  obtain rfl : offset = Text.byteLength before := congrArg Span.start hspan
  have hkey : (pair.raw (Text.byteLength before)).key.cut (before ++ (pair.text ++ after)) =
      String.ofList pair.key := by
    apply Span.cut_of_spells
    exact ⟨before, ':' :: '"' :: (pair.value ++ '"' :: after), by simp [WrittenPair.text], rfl⟩
  have hvalue : (pair.raw (Text.byteLength before)).value.cut (before ++ (pair.text ++ after)) =
      String.ofList pair.value := by
    by_cases hempty : pair.value = []
    · simp [WrittenPair.raw, hempty]
    · apply Span.cut_of_spells
      refine ⟨before ++ (pair.key ++ [':', '"']), '"' :: after, by simp [WrittenPair.text], ?_⟩
      have hmarks : Text.byteLength [':', '"'] = 2 := rfl
      simp only [WrittenPair.raw, hempty, if_false, Text.byteLength_append, hmarks,
        Nat.add_assoc]
  simp only [Entry.ofRaw, hkey, hvalue]
  by_cases hempty : pair.value = [] <;>
    simp [WrittenPair.raw, WrittenPair.entry, hempty, Span.point]

/-- **Round trip.** Scanning a written tag gives one entry a pair, in their order, each with
the offsets of the place where it stands in the text, and no problem. -/
theorem scan_written (tag : WrittenTag) (base : Offset)
    (hfits : base + Text.byteLength tag.text ≤ Offset.limit) :
    scan tag.text base =
        ⟨tag.placed.map fun (offset, pair) => pair.entry (base + offset), []⟩ ∧
      tag.placed.map Prod.snd = tag.pairs ∧
      ∀ placed ∈ tag.placed,
        (⟨placed.1, placed.1 + Text.byteLength placed.2.text⟩ : Span).Spells tag.text
          placed.2.text := by
  refine ⟨?_, tag.map_placed, fun placed h => WrittenTag.spells_of_mem_placed h⟩
  simp only [scan, scanWith, WrittenTag.rawEntries_text, WrittenTag.invalidOffsets_text,
    List.map_map, List.map_nil, ScanResult.mk.injEq, and_true]
  apply List.map_congr_left
  intro placed hplaced
  obtain ⟨offset, pair⟩ := placed
  have hspells := WrittenTag.spells_of_mem_placed hplaced
  -- Everything the pair reports lies inside the text, so no offset saturates.
  have hinside : offset + Text.byteLength pair.text ≤ Text.byteLength tag.text :=
    hspells.stop_le
  have hlength : Text.byteLength pair.text =
      Text.byteLength pair.key + 2 + (Text.byteLength pair.value + 1) := by
    simp only [WrittenPair.text, Text.byteLength_append, Text.byteLength_cons,
      Text.byteLength_nil, show ':'.utf8Size = 1 from rfl, show '"'.utf8Size = 1 from rfl]
    omega
  have hshift {position : Offset} (h : position ≤ Text.byteLength tag.text) :
      Offset.shift base position = base + position := Offset.shift_of_le (by lia)
  rw [Function.comp_apply, WrittenPair.ofRaw_raw hspells]
  simp only [WrittenPair.entry, Entry.mk.injEq, true_and, and_true]
  refine ⟨hshift (by lia), ?_, ?_⟩
  · rw [hshift (by split <;> lia)]
    lia
  · rw [hshift (by split <;> lia)]
    lia

/-- The tag json:"a\"b", xml:"" after one space: an escaped quote, a gap of two characters
and an empty value. -/
def sampleTag : WrittenTag where
  indent := 1
  gapped := [(⟨['j', 's', 'o', 'n'], ['a', '\\', '"', 'b'], by decide,
    List.all_eq_true.1 (by decide), by simp; decide, by decide, by decide⟩, ⟨',', 1, by decide⟩)]
  last? := some ⟨['x', 'm', 'l'], [], by decide, List.all_eq_true.1 (by decide), by simp,
    by decide, by decide⟩

theorem scan_written_sampleTag :
    7 + Text.byteLength sampleTag.text ≤ Offset.limit ∧
      scan sampleTag.text 7 =
        ⟨[⟨"json", "a\\\"b", 8, 14, 18, true, false, true⟩,
          ⟨"xml", "", 21, 25, 25, true, false, true⟩], []⟩ := by
  have hfits : 7 + Text.byteLength sampleTag.text ≤ Offset.limit := by decide
  refine ⟨hfits, (scan_written sampleTag 7 hfits).1.trans ?_⟩
  decide

end TagLint
