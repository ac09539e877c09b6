import TagLint.Proofs.Source.VisibleLines
import TagLint.Render.Emitter

/-!
# Carets under a line

Where the source is known, a label is shown as the visible text of the line that its span starts on,
with carets below. Two positions and the text of the line are looked up, each by itself, and the
carets follow from the columns.

- All of it can be read off the place of the span (`Underline.ofSpan_eq`): what the line has before
  the span, what the span covers, and what the line has from there on.
- A span ends on the line that it starts on unless it covers a newline (`SpanPlace.lineOf_stop_eq`),
  and then the carets stop at the end of the visible text (`SpanPlace.caretCount`).
- So the padding has a character for each one before the span, and there is a caret for each one
  that the span covers on the line, but one under an empty span (`Terminal.label_underlines`).
-/

namespace TagLint

open LineTable

/-- Of two ways to cut a text, the later one has more in its first part. -/
theorem Text.exists_append_of_byteLength_le {first second front back : List Char}
    (h : first ++ second = front ++ back) (hle : byteLength first ≤ byteLength front) :
    ∃ more, front = first ++ more ∧ second = more ++ back := by
  rcases List.append_eq_append_iff.1 h with ⟨more, hfront, hsecond⟩ | ⟨more, hfirst, hback⟩
  · exact ⟨more, hfront, hsecond⟩
  · have hnone : more = [] := by
      rw [hfirst, byteLength_append] at hle
      exact eq_nil_of_byteLength_eq_zero (by omega)
    exact ⟨[], by rw [hfirst, hnone, List.append_nil, List.append_nil],
      by rw [hback, hnone, List.nil_append, List.nil_append]⟩

/-- How many carets a span gets under the line that it starts on, whose visible text ends at an
offset: one for each character of the span, or of the part of it that is on the line, and never
none. -/
structure CaretCount (source : List Char) (span : Span) (lineEnd : Offset) (carets : Nat) :
    Prop where
  /-- A span that ends in the visible text ends on the line. -/
  inside : span.stop ≤ lineEnd →
    (ofSource source).lineOf span.stop = (ofSource source).lineOf span.start
  same : (ofSource source).lineOf span.stop = (ofSource source).lineOf span.start →
    ∃ covered, Text.slice? span.start span.stop source = some covered ∧
      carets = max 1 covered.length
  later : (ofSource source).lineOf span.start < (ofSource source).lineOf span.stop →
    ∃ covered, Text.slice? span.start lineEnd source = some covered ∧
      carets = max 1 covered.length

/-! ## Spans in their place -/

/-- Where a span is in a source: behind some whole lines and the first part of another, and before
the rest of the source. -/
structure SpanPlace (source : List Char) (span : Span) (before passed covered back : List Char) :
    Prop where
  place : Place source span.start before passed (covered ++ back)
  start : span.start = Text.byteLength (before ++ passed)
  stop : span.stop = Text.byteLength ((before ++ passed) ++ covered)

/-- A span between two boundaries has a place. -/
theorem exists_spanPlace {source : List Char} {span : Span}
    (hstart : Text.isBoundary source span.start = true)
    (hstop : Text.isBoundary source span.stop = true) (hle : span.start ≤ span.stop) :
    ∃ before passed covered back, SpanPlace source span before passed covered back := by
  obtain ⟨front, rest, rfl, hfront⟩ := Text.isBoundary_iff.1 hstart
  obtain ⟨longer, back, hsplit, hlonger⟩ := Text.isBoundary_iff.1 hstop
  rw [hfront, hlonger] at hle
  obtain ⟨covered, rfl, rfl⟩ := Text.exists_append_of_byteLength_le hsplit hle
  obtain ⟨before, passed, rfl, hplace⟩ := exists_place_of_boundary front (covered ++ back)
  exact ⟨before, passed, covered, back, hfront ▸ hplace, hfront, hlonger⟩

namespace SpanPlace

variable {source before passed covered ahead back tail : List Char} {span : Span}

/-- The lines that a span goes on for are the newlines that it covers. -/
theorem lineOf_stop_eq (h : SpanPlace source span before passed covered back) :
    (ofSource source).lineOf span.stop =
      (ofSource source).lineOf span.start + covered.count '\n' := by
  have hspells : source = ((before ++ passed) ++ covered) ++ back := by
    rw [h.place.spells]
    simp only [List.append_assoc]
  rw [h.place.lineOf_eq, h.stop, hspells, lineOf_boundary, List.count_append, List.count_append,
    List.count_eq_zero.2 h.place.within]
  omega

/-- A span that covers no newline ends behind what it covers. -/
theorem position_stop_eq (h : SpanPlace source span before passed covered back)
    (hcovered : '\n' ∉ covered) :
    (ofSource source).position source span.stop =
      (before.count '\n' + 1, (passed ++ covered).length + 1) := by
  rw [h.stop]
  exact (h.place.extend hcovered).position_eq

/-- Any first part of what follows is the slice up to its end. -/
theorem slice?_eq (h : SpanPlace source span before passed covered back)
    (hahead : covered ++ back = ahead ++ tail) :
    Text.slice? span.start (Text.byteLength ((before ++ passed) ++ ahead)) source = some ahead := by
  rw [h.place.spells, hahead, h.start, ← List.append_assoc before,
    Text.byteLength_append (before ++ passed), Text.slice?_append]

/-- The carets under a line that goes on without a newline: they are cut at its end if and only if
the span covers a newline. -/
theorem caretCount (h : SpanPlace source span before passed covered back)
    (hahead : covered ++ back = ahead ++ tail) (hwithin : '\n' ∉ ahead) :
    CaretCount source span (Text.byteLength ((before ++ passed) ++ ahead))
      (max 1 (if '\n' ∈ covered then ahead.length else covered.length)) := by
  have hline := h.lineOf_stop_eq
  refine ⟨?_, ?_, ?_⟩
  · intro hle
    rw [h.stop, Text.byteLength_append, Text.byteLength_append (before ++ passed)] at hle
    obtain ⟨more, rfl, -⟩ := Text.exists_append_of_byteLength_le hahead (by lia)
    rw [hline, List.count_eq_zero.2 fun hmem => hwithin (List.mem_append_left more hmem),
      Nat.add_zero]
  · intro hsame
    have hcovered : '\n' ∉ covered := List.count_eq_zero.1 (by omega)
    refine ⟨covered, ?_, by rw [if_neg hcovered]⟩
    rw [h.stop, h.slice?_eq rfl]
  · intro hlater
    have hcovered : '\n' ∈ covered := List.count_pos_iff.1 (by omega)
    exact ⟨ahead, h.slice?_eq hahead, by rw [if_pos hcovered]⟩

/-- Nothing that follows is longer than the source. -/
theorem length_le (h : SpanPlace source span before passed covered back)
    (hahead : covered ++ back = ahead ++ tail) : ahead.length ≤ Text.byteLength source := by
  have hlength := Text.length_le_byteLength ahead
  rw [h.place.spells, hahead]
  simp only [Text.byteLength_append]
  omega

end SpanPlace

namespace Terminal

/-! ## The underline -/

/-- What is looked up for a span, read off its place. -/
theorem Underline.ofSpan_eq {source : String} {span : Span}
    {before passed covered ahead back : List Char}
    (h : SpanPlace source.toList span before passed covered back)
    (htext : (ofSource source.toList).lineText? source.toList
      ((ofSource source.toList).lineOf span.start) = some (passed ++ ahead)) :
    ofSpan (.ofString source) span =
      ⟨(ofSource source.toList).lineOf span.start, passed.length + 1, passed ++ ahead,
        max 1 (if '\n' ∈ covered then ahead.length else covered.length)⟩ := by
  have hposition := h.place.position_eq
  have hline : (SourceText.ofString source).line ((ofSource source.toList).lineOf span.start) =
      passed ++ ahead := by
    show ((ofSource source.toList).lineText? source.toList _).getD [] = _
    rw [htext, Option.getD_some]
  have hcolumn : (ofSpan (.ofString source) span).column = passed.length + 1 :=
    congrArg Prod.snd hposition
  have hcarets : (ofSpan (.ofString source) span).carets =
      max 1 (if '\n' ∈ covered then ahead.length else covered.length) := by
    show max 1 ((if (ofSource source.toList).lineOf span.stop =
        (ofSource source.toList).lineOf span.start
      then ((ofSource source.toList).position source.toList span.stop).2
      else ((SourceText.ofString source).line
        ((ofSource source.toList).lineOf span.start)).length + 1) -
      ((ofSource source.toList).position source.toList span.start).2) = _
    rw [hposition, hline, h.lineOf_stop_eq]
    by_cases hnewline : '\n' ∈ covered
    · have hcount := List.count_pos_iff.2 hnewline
      rw [if_neg (by omega), if_pos hnewline, List.length_append]
      congr 1
      omega
    · rw [List.count_eq_zero.2 hnewline, if_pos (Nat.add_zero _), if_neg hnewline,
        h.position_stop_eq hnewline, List.length_append]
      congr 1
      show passed.length + covered.length + 1 - (passed.length + 1) = covered.length
      omega
  rw [← hcarets, ← hcolumn, ← hline]
  rfl

/-! ## The snippet -/

/-- A label under its line: where it is, the visible text of the line, and carets that stand behind
as many characters as the line has before the span. -/
def snippet (path : String) (line : Nat) (passed visible : List Char) (carets : Nat)
    (message : String) : String :=
  let number := Nat.repr line
  let gutter := String.ofList (List.replicate number.length ' ')
  let padding := String.ofList (passed.map fun c => if c = '\t' then '\t' else ' ')
  gutter ++ "--> " ++ path ++ number ++ ":" ++ Nat.repr (passed.length + 1) ++ "\n" ++
    (gutter ++ " |\n") ++
    (number ++ " | " ++ String.ofList visible ++ "\n") ++
    (gutter ++ " | " ++ padding ++ String.ofList (List.replicate carets '^') ++ " " ++ message ++
      "\n")

theorem writeAll_snippetLabel {view : FileView} {source : SourceText} {label : Label}
    {line carets : Nat} {passed ahead : List Char}
    (h : Underline.ofSpan source label.span = ⟨line, passed.length + 1, passed ++ ahead, carets⟩) :
    Fragment.writeAll false (snippetLabel view source label) =
      snippet (pathPart view ":") line passed (passed ++ ahead) carets label.message := by
  have hpadding : (Underline.ofSpan source label.span).padding =
      passed.map fun c => if c = '\t' then '\t' else ' ' := by
    rw [h, Underline.padding, Nat.add_sub_cancel, List.take_left]
  rw [snippetLabel, hpadding, h]
  simp [snippet, String.append_assoc]

/-- What is shown of a diagnostic holds what is shown of each of its labels. -/
theorem exists_around_label {view : FileView} {label : Label} {diagnostic : Diagnostic}
    (h : label ∈ diagnostic.labels) (colors begun : Bool) : ∃ above below,
    Emitter.output ⟨.human colors, view, begun⟩ (.emit diagnostic) =
      above ++ (Fragment.writeAll colors (Terminal.label view label) ++ below) := by
  have hlabels : Terminal.label view label <:+:
      diagnostic.labels.flatMap (Terminal.label view) := by
    rw [List.flatMap_def]
    exact List.infix_of_mem_flatten (List.mem_map_of_mem h)
  have hwhole : diagnostic.labels.flatMap (Terminal.label view) <:+:
      Terminal.diagnostic view diagnostic := by
    rw [Terminal.diagnostic, List.append_assoc, List.append_assoc]
    exact List.infix_append _ _ _
  obtain ⟨above, below, hfragments⟩ := hlabels.trans hwhole
  refine ⟨Fragment.writeAll colors above, Fragment.writeAll colors below, ?_⟩
  show Fragment.writeAll colors (Terminal.diagnostic view diagnostic) = _
  rw [← hfragments, List.append_assoc, Fragment.writeAll_append, Fragment.writeAll_append]

/-- **Carets.** A label whose span starts in the visible text of a line is shown under that text:
the position of its start, padding for each character before it on the line, and carets for the
characters that it covers there. -/
theorem label_underlines {view : FileView} {source : String} {label : Label} {start : Offset}
    {visible : List Char} (hsource : view.source? = some source)
    (hsmall : source.utf8ByteSize < Offset.limit)
    (hstart : Text.isBoundary source.toList label.span.start = true)
    (hstop : Text.isBoundary source.toList label.span.stop = true)
    (hle : label.span.start ≤ label.span.stop)
    (hline : (ofSource source.toList).lineStart?
      ((ofSource source.toList).lineOf label.span.start) = some start)
    (hvisible : (ofSource source.toList).lineText? source.toList
      ((ofSource source.toList).lineOf label.span.start) = some visible)
    (hinside : label.span.start ≤ start + Text.byteLength visible) :
    (∃ before returns later, VisibleLine source.toList before visible returns later ∧
      start = Text.byteLength before) ∧
    ∃ passed carets,
      Text.slice? start label.span.start source.toList = some passed ∧
      CaretCount source.toList label.span (start + Text.byteLength visible) carets ∧
      Fragment.writeAll false (Terminal.label view label) =
        snippet (pathPart view ":") ((ofSource source.toList).lineOf label.span.start) passed
          visible carets label.message ∧
      (∀ diagnostic : Diagnostic, label ∈ diagnostic.labels → ∀ begun, ∃ above below,
        Emitter.output ⟨.human false, view, begun⟩ (.emit diagnostic) =
          above ++ (Fragment.writeAll false (Terminal.label view label) ++ below)) ∧
      (ofSource source.toList).lineOf label.span.start ≤ Offset.limit ∧
      passed.length + 1 ≤ Offset.limit ∧ carets ≤ Offset.limit := by
  obtain ⟨before, passed, covered, back, hspan⟩ := exists_spanPlace hstart hstop hle
  obtain ⟨shown, returns, later, hshown, hsplit, htext⟩ := hspan.place.exists_visibleLine
  obtain rfl : shown = visible := Option.some.inj (htext.symm.trans hvisible)
  obtain rfl : Text.byteLength before = start :=
    Option.some.inj (hspan.place.lineStart?_eq.symm.trans hline)
  -- The span starts in the visible text, so that is what comes before the span and a rest.
  have hpassed : Text.byteLength passed ≤ Text.byteLength shown := by
    rw [hspan.start, Text.byteLength_append] at hinside
    lia
  obtain ⟨ahead, rfl, hahead⟩ := Text.exists_append_of_byteLength_le hsplit hpassed
  have hwithin : '\n' ∉ ahead := fun hmem => hshown.within (List.mem_append_right _ hmem)
  have hcount := hspan.caretCount hahead hwithin
  rw [List.append_assoc, Text.byteLength_append] at hcount
  have hcounts := counts (Text.byteLength_toList source ▸ hsmall) label.span.start
  have hcolumn := hcounts.column_le
  rw [hspan.place.position_eq] at hcolumn
  refine ⟨⟨before, returns, later, hshown, rfl⟩, passed, _, ?_, hcount, ?_, ?_, hcounts.line_le,
    hcolumn, ?_⟩
  · rw [hspan.start, Text.byteLength_append, hspan.place.slice?_eq]
  · have htext? : view.text? = some (.ofString source) := congrArg (Option.map _) hsource
    rw [Terminal.label, htext?]
    exact writeAll_snippetLabel (Underline.ofSpan_eq hspan htext)
  · intro diagnostic hlabel begun
    exact exists_around_label hlabel false begun
  · have hone : 1 ≤ Offset.limit := by decide
    have hfirst := hspan.length_le hahead
    have hsecond := hspan.length_le (Eq.refl (covered ++ back))
    rw [Text.byteLength_toList] at hfirst hsecond
    apply Nat.max_le.2 ⟨hone, ?_⟩
    split <;> omega

/-- A source of three lines. Tabs and a character of two bytes are before the span, which goes on
behind the line. -/
def tabbedSource : String := "id\r\n\t\u00e9\t`k`\r\nz"

/-- A span that reaches from the middle of the second line to the end of the third. -/
def longLabel : Label := ⟨⟨8, 14⟩, "not closed"⟩

/-- The carets stop at the end of the second line, before the carriage return. -/
theorem label_underlines_longLabel :
    tabbedSource.utf8ByteSize < Offset.limit ∧
      Text.isBoundary tabbedSource.toList 8 = true ∧
      Text.isBoundary tabbedSource.toList 14 = true ∧
      (ofSource tabbedSource.toList).lineStart? 2 = some 4 ∧
      (ofSource tabbedSource.toList).lineText? tabbedSource.toList 2 =
        some "\t\u00e9\t`k`".toList ∧
      Fragment.writeAll false (Terminal.label ⟨some "t.go", some tabbedSource⟩ longLabel) =
        " --> t.go:2:4\n  |\n2 | \t\u00e9\t`k`\n  | \t \t^^^ not closed\n" := by
  have hsmall : tabbedSource.utf8ByteSize < Offset.limit := by decide +kernel
  have hstart : Text.isBoundary tabbedSource.toList 8 = true := by decide +kernel
  have hstop : Text.isBoundary tabbedSource.toList 14 = true := by decide +kernel
  have hnumber : (ofSource tabbedSource.toList).lineOf 8 = 2 := by decide +kernel
  have hline : (ofSource tabbedSource.toList).lineStart? 2 = some 4 := by decide +kernel
  have hvisible : (ofSource tabbedSource.toList).lineText? tabbedSource.toList 2 =
      some "\t\u00e9\t`k`".toList := by decide +kernel
  obtain ⟨-, passed, carets, hpassed, hcount, hshown, -⟩ :=
    @label_underlines ⟨some "t.go", some tabbedSource⟩ tabbedSource longLabel 4 _ rfl hsmall hstart
      hstop (by decide) (hnumber ▸ hline) (hnumber ▸ hvisible) (by decide +kernel)
  obtain ⟨covered, hcovered, rfl⟩ := hcount.later (by decide +kernel)
  obtain rfl : "\t\u00e9\t".toList = passed :=
    Option.some.inj (Eq.trans (by decide +kernel) hpassed)
  obtain rfl : "`k`".toList = covered := Option.some.inj (Eq.trans (by decide +kernel) hcovered)
  exact ⟨hsmall, hstart, hstop, hline, hvisible, hshown.trans (by decide +kernel)⟩

end Terminal

end TagLint
