import TagLint.Proofs.Command.Reports
import TagLint.Proofs.Text.Cut

/-!
# Colours

An emitter that writes colours and one that does not write the same texts, and what sets them apart
are four escape sequences. Deleting these from the coloured output gives the plain one
(`Emitter.erase_run`), provided that no message, path or source holds an escape character.

- A terminal shows nothing that holds an escape character, if nothing that it is given does
  (`Terminal.escapeFree_diagnostic`): it adds digits, carets, blanks and fixed words only, and what
  it shows of a source is part of a line.
- Deletion then passes over the text of a fragment (`deleteAll_append`) and takes away what stands
  around it (`deleteAll_sequence`), whatever the next fragment begins with.
-/

namespace TagLint

/-! ## Deleting sequences from a text -/

namespace Text

/-- A text without the occurrences of some marks: the text is read from its beginning, and a mark is
left out wherever it is met. -/
def deleteAll (marks : List (List Char)) : List Char → List Char
  | [] => []
  | c :: cs =>
    match marks.find? (·.isPrefixOf (c :: cs)) with
    | some mark => deleteAll marks (cs.drop (mark.length - 1))
    | none => c :: deleteAll marks cs
termination_by cs => cs.length
decreasing_by
  all_goals
    simp only [List.length_drop, List.length_cons]
    omega

theorem deleteAll_cons_of_none {marks : List (List Char)} {c : Char} {cs : List Char}
    (h : ∀ mark ∈ marks, ¬ mark.isPrefixOf (c :: cs)) :
    deleteAll marks (c :: cs) = c :: deleteAll marks cs := by
  have hnone : marks.find? (·.isPrefixOf (c :: cs)) = none := by
    rw [List.find?_eq_none]
    exact h
  rw [deleteAll, hnone]

/-- Where a mark is met, the text goes on behind it. -/
theorem deleteAll_append_of_find? {marks : List (List Char)} {c : Char} {mark cs : List Char}
    (h : marks.find? (·.isPrefixOf ((c :: mark) ++ cs)) = some (c :: mark)) :
    deleteAll marks ((c :: mark) ++ cs) = deleteAll marks cs := by
  rw [List.cons_append] at h ⊢
  rw [deleteAll, h]
  simp

end Text

namespace Style

/-- The character that escape sequences begin with. -/
def escape : Char := '\x1b'

/-- The escape sequences that an emitter writes. -/
def sequences : List (List Char) :=
  [error.start.toList, help.start.toList, bold.start.toList, reset.toList]

/-- A text without escape sequences. -/
def erase (text : String) : String := String.ofList (Text.deleteAll sequences text.toList)

/-- A character that no sequence begins with stays. -/
theorem deleteAll_cons {c : Char} (hc : c ≠ escape) (cs : List Char) :
    Text.deleteAll sequences (c :: cs) = c :: Text.deleteAll sequences cs := by
  apply Text.deleteAll_cons_of_none
  have hfirst : ∀ mark ∈ sequences, ∃ rest, mark = escape :: rest := by
    simp [sequences, start, reset, escape]
  intro mark hmark
  obtain ⟨rest, rfl⟩ := hfirst mark hmark
  simp [Ne.symm hc]

/-- So does a text without an escape character, whatever follows. -/
theorem deleteAll_append {text : List Char} (h : escape ∉ text) (rest : List Char) :
    Text.deleteAll sequences (text ++ rest) = text ++ Text.deleteAll sequences rest := by
  induction text with
  | nil => rfl
  | cons c text ih =>
    rw [List.mem_cons, not_or] at h
    rw [List.cons_append, deleteAll_cons (Ne.symm h.1), ih h.2, List.cons_append]

/-- A sequence goes, and nothing behind it. -/
theorem deleteAll_sequence {mark : List Char} (h : mark ∈ sequences) (rest : List Char) :
    Text.deleteAll sequences (mark ++ rest) = Text.deleteAll sequences rest := by
  -- No sequence begins another, so the one that is met is the one that stands there.
  simp only [sequences, List.mem_cons, List.not_mem_nil, or_false] at h
  rcases h with rfl | rfl | rfl | rfl <;> exact Text.deleteAll_append_of_find? rfl

theorem start_mem_sequences (style : Style) : style.start.toList ∈ sequences := by
  cases style <;> simp [sequences]

theorem reset_mem_sequences : reset.toList ∈ sequences := by simp [sequences]

end Style

/-! ## Texts without escape characters -/

/-- No escape character is in the text. -/
def EscapeFree (text : String) : Prop := Style.escape ∉ text.toList

instance (text : String) : Decidable (EscapeFree text) := inferInstanceAs (Decidable (_ ∉ _))

@[simp] theorem escapeFree_append {first second : String} :
    EscapeFree (first ++ second) ↔ EscapeFree first ∧ EscapeFree second := by
  simp [EscapeFree, not_or]

@[simp] theorem escapeFree_ofList {cs : List Char} :
    EscapeFree (String.ofList cs) ↔ Style.escape ∉ cs := by
  simp [EscapeFree]

@[simp] theorem escapeFree_repr (n : Nat) : EscapeFree (Nat.repr n) := by
  rw [EscapeFree, Nat.toList_repr]
  intro hmem
  have hdigit := Nat.isDigit_of_mem_toDigits (by decide) (by decide) hmem
  exact absurd hdigit (by decide)

theorem escapeFree_join {texts : List String} (h : ∀ text ∈ texts, EscapeFree text) :
    EscapeFree (String.join texts) := by
  rw [EscapeFree, String.toList_join, List.mem_flatMap]
  rintro ⟨text, htext, hmem⟩
  exact h text htext hmem

theorem Span.escapeFree_toText (span : Span) : EscapeFree span.toText := by
  rw [toText, escapeFree_append, escapeFree_append]
  exact ⟨⟨escapeFree_repr _, by decide⟩, escapeFree_repr _⟩

theorem Code.escapeFree_toText (code : Code) : EscapeFree code.toText := by
  cases code <;> decide

/-- Nothing that is said in the diagnostic holds an escape character. -/
structure Diagnostic.EscapeFree (diagnostic : Diagnostic) : Prop where
  message : TagLint.EscapeFree diagnostic.message
  labels : ∀ label ∈ diagnostic.labels, TagLint.EscapeFree label.message
  notes : ∀ note ∈ diagnostic.notes, TagLint.EscapeFree note
  suggestions : ∀ suggestion ∈ diagnostic.suggestions, TagLint.EscapeFree suggestion

/-- Neither the name nor the text of the file holds an escape character. -/
structure FileView.EscapeFree (view : FileView) : Prop where
  path : ∀ path ∈ view.path?, TagLint.EscapeFree path
  source : ∀ source ∈ view.source?, TagLint.EscapeFree source

/-- Nothing that the request hands over holds an escape character. -/
def Request.EscapeFree : Request → Prop
  | .setFile view => view.EscapeFree
  | .emit diagnostic => diagnostic.EscapeFree
  | .start | .flush | .finish _ => True

/-! ## Parts of a source -/

namespace Text

theorem isSuffix_of_dropBytes? {position : Nat} {cs rest : List Char}
    (h : dropBytes? position cs = some rest) : rest <:+ cs := by
  fun_induction dropBytes? position cs with
  | case1 cs =>
    obtain rfl := Option.some.inj h
    exact List.suffix_rfl
  | case2 => cases h
  | case3 n c cs _ ih => exact (ih h).trans (List.suffix_cons c cs)
  | case4 => cases h

theorem isPrefix_of_takeBytes? {position : Nat} {cs front : List Char}
    (h : takeBytes? position cs = some front) : front <+: cs := by
  fun_induction takeBytes? position cs generalizing front with
  | case1 cs =>
    obtain rfl := Option.some.inj h
    exact List.nil_prefix
  | case2 => cases h
  | case3 n c cs _ ih =>
    obtain ⟨text, htext, rfl⟩ := Option.map_eq_some_iff.1 h
    exact (List.cons_prefix_cons).2 ⟨rfl, ih htext⟩
  | case4 => cases h

/-- A slice is part of the text. -/
theorem mem_of_slice? {start stop : Nat} {cs text : List Char}
    (h : slice? start stop cs = some text) {c : Char} (hc : c ∈ text) : c ∈ cs := by
  rw [slice?] at h
  split at h
  · obtain ⟨rest, hrest, htext⟩ := Option.bind_eq_some_iff.1 h
    exact (isSuffix_of_dropBytes? hrest).mem ((isPrefix_of_takeBytes? htext).mem hc)
  · cases h

end Text

/-- A line shows nothing but characters of the source. -/
theorem SourceText.mem_of_mem_line {source : SourceText} {number : Nat} {c : Char}
    (h : c ∈ source.line number) : c ∈ source.text := by
  rw [line] at h
  cases htext : source.lines.lineText? source.text number with
  | none =>
    rw [htext] at h
    cases h
  | some text =>
    rw [htext, Option.getD_some] at h
    simp only [LineTable.lineText?, Option.bind_eq_bind, Option.bind_eq_some_iff] at htext
    obtain ⟨start, -, whole, hwhole, htrimmed⟩ := htext
    obtain rfl := Option.some.inj htrimmed
    rw [Text.dropEndWhile_eq_rdropWhile] at h
    exact Text.mem_of_slice? hwhole ((List.rdropWhile_prefix _ _).mem h)

/-! ## What a terminal shows -/

namespace Terminal

variable {view : FileView}

theorem escapeFree_pathPart (hview : view.EscapeFree) {separator : String}
    (hseparator : EscapeFree separator) : EscapeFree (pathPart view separator) := by
  rw [pathPart]
  cases hpath : view.path? with
  | none =>
    show EscapeFree ""
    decide
  | some path => exact escapeFree_append.2 ⟨hview.path path hpath, hseparator⟩

theorem escapeFree_padding (underline : Underline) :
    Style.escape ∉ underline.padding := by
  rw [Underline.padding, List.mem_map]
  rintro ⟨c, -, hc⟩
  split at hc
  · exact absurd hc (by decide)
  · exact absurd hc (by decide)

theorem escapeFree_spanLabel (hview : view.EscapeFree) {label : Label}
    (hlabel : EscapeFree label.message) :
    ∀ fragment ∈ spanLabel view label, EscapeFree fragment.text := by
  have hpath := escapeFree_pathPart hview (show EscapeFree "@" by decide)
  have hspan := label.span.escapeFree_toText
  simp +decide [spanLabel, Fragment.plain, Fragment.styled, hpath, hspan, hlabel]

theorem escapeFree_snippetLabel (hview : view.EscapeFree) {source : SourceText}
    (hsource : Style.escape ∉ source.text) {label : Label} (hlabel : EscapeFree label.message) :
    ∀ fragment ∈ snippetLabel view source label, EscapeFree fragment.text := by
  have hpath := escapeFree_pathPart hview (show EscapeFree ":" by decide)
  have htext : Style.escape ∉ (Underline.ofSpan source label.span).text :=
    fun hmem => hsource (SourceText.mem_of_mem_line hmem)
  have hpadding := escapeFree_padding (Underline.ofSpan source label.span)
  simp +decide [snippetLabel, Fragment.plain, Fragment.styled, hpath, htext, hpadding, hlabel]

theorem escapeFree_label (hview : view.EscapeFree) {label : Label}
    (hlabel : EscapeFree label.message) :
    ∀ fragment ∈ Terminal.label view label, EscapeFree fragment.text := by
  rw [Terminal.label, FileView.text?]
  cases hsource : view.source? with
  | none => exact escapeFree_spanLabel hview hlabel
  | some source =>
    have hfree : Style.escape ∉ (SourceText.ofString source).text := hview.source source hsource
    exact escapeFree_snippetLabel hview hfree hlabel

theorem escapeFree_remark {style : Style} {word text : String} (hword : EscapeFree word)
    (htext : EscapeFree text) : ∀ fragment ∈ remark style word text, EscapeFree fragment.text := by
  simp +decide [remark, Fragment.plain, Fragment.styled, hword, htext]

theorem escapeFree_head {code message : String} (hcode : EscapeFree code)
    (hmessage : EscapeFree message) :
    ∀ fragment ∈ [Fragment.styled .error "error", .styled .bold ("[" ++ code ++ "]"),
      .plain (": " ++ message ++ "\n")], EscapeFree fragment.text := by
  simp +decide [Fragment.plain, Fragment.styled, hcode, hmessage]

/-- What is shown of a diagnostic holds no escape character but those of the styles. -/
theorem escapeFree_diagnostic (hview : view.EscapeFree) {diagnostic : Diagnostic}
    (h : diagnostic.EscapeFree) :
    ∀ fragment ∈ Terminal.diagnostic view diagnostic, EscapeFree fragment.text := by
  intro fragment hmem
  simp only [Terminal.diagnostic, List.append_assoc, List.mem_append, List.mem_flatMap] at hmem
  rcases hmem with hhead | ⟨label, hlabel, hmem⟩ | ⟨note, hnote, hmem⟩ | ⟨hint, hhint, hmem⟩ | hend
  · exact escapeFree_head diagnostic.code.escapeFree_toText h.message fragment hhead
  · exact escapeFree_label hview (h.labels label hlabel) fragment hmem
  · exact escapeFree_remark (by decide) (h.notes note hnote) fragment hmem
  · exact escapeFree_remark (by decide) (h.suggestions hint hhint) fragment hmem
  · obtain rfl := List.mem_singleton.1 hend
    decide

theorem escapeFree_summary (problems : Nat) :
    ∀ fragment ∈ summary problems, EscapeFree fragment.text := by
  have hplural : EscapeFree (if problems = 1 then "" else "s") := by split <;> decide
  rw [summary]
  split
  · simp
  · simp +decide [Fragment.plain, Fragment.styled, hplural]

end Terminal

/-! ## Fragments with and without colours -/

namespace Fragment

/-- Without its sequences a fragment is as it would be without its style. -/
theorem deleteAll_write {fragment : Fragment} (h : EscapeFree fragment.text) (rest : List Char) :
    Text.deleteAll Style.sequences ((fragment.write true).toList ++ rest) =
      (fragment.write false).toList ++ Text.deleteAll Style.sequences rest := by
  obtain ⟨style?, text⟩ := fragment
  cases style? with
  | none => exact Style.deleteAll_append h rest
  | some style =>
    show Text.deleteAll _ ((style.start ++ text ++ Style.reset).toList ++ rest) = text.toList ++ _
    rw [String.toList_append, String.toList_append, List.append_assoc, List.append_assoc,
      Style.deleteAll_sequence style.start_mem_sequences, Style.deleteAll_append h,
      Style.deleteAll_sequence Style.reset_mem_sequences]

theorem deleteAll_writeAll {fragments : List Fragment}
    (h : ∀ fragment ∈ fragments, EscapeFree fragment.text) (rest : List Char) :
    Text.deleteAll Style.sequences ((writeAll true fragments).toList ++ rest) =
      (writeAll false fragments).toList ++ Text.deleteAll Style.sequences rest := by
  induction fragments with
  | nil => rfl
  | cons fragment fragments ih =>
    obtain ⟨hfirst, hlater⟩ := List.forall_mem_cons.1 h
    rw [writeAll_cons, writeAll_cons, String.toList_append, String.toList_append,
      List.append_assoc, List.append_assoc, deleteAll_write hfirst, ih hlater]

theorem erase_writeAll {fragments : List Fragment}
    (h : ∀ fragment ∈ fragments, EscapeFree fragment.text) :
    Style.erase (writeAll true fragments) = writeAll false fragments := by
  have hdelete := deleteAll_writeAll h []
  rw [List.append_nil, Text.deleteAll, List.append_nil] at hdelete
  rw [Style.erase, hdelete, String.ofList_toList]

theorem escapeFree_writeAll {fragments : List Fragment}
    (h : ∀ fragment ∈ fragments, EscapeFree fragment.text) :
    EscapeFree (writeAll false fragments) := by
  apply escapeFree_join
  intro text htext
  obtain ⟨⟨style?, shown⟩, hmem, rfl⟩ := List.mem_map.1 htext
  cases style? with
  | none => exact h _ hmem
  | some style => exact h _ hmem

end Fragment

/-! ## Runs with and without colours -/

namespace Emitter

variable {view : FileView}

/-- What a request shows, with colours or without. -/
theorem exists_fragments (begun : Bool) (hview : view.EscapeFree) {request : Request}
    (h : request.EscapeFree) :
    ∃ fragments : List Fragment, (∀ fragment ∈ fragments, EscapeFree fragment.text) ∧
      ∀ colors, output ⟨.human colors, view, begun⟩ request =
        Fragment.writeAll colors fragments := by
  cases request with
  | start | setFile | flush => exact ⟨[], by simp, fun _ => rfl⟩
  | emit diagnostic => exact ⟨_, Terminal.escapeFree_diagnostic hview h, fun _ => rfl⟩
  | finish problems => exact ⟨_, Terminal.escapeFree_summary problems, fun _ => rfl⟩

/-- The emitter after a request does not depend on the colours, and what it was given is still free
of escape characters. -/
theorem exists_next (begun : Bool) (hview : view.EscapeFree) {request : Request}
    (h : request.EscapeFree) :
    ∃ (view' : FileView) (begun' : Bool), view'.EscapeFree ∧
      ∀ colors, next ⟨.human colors, view, begun⟩ request = ⟨.human colors, view', begun'⟩ := by
  cases request with
  | setFile view' => exact ⟨view', begun, h, fun _ => rfl⟩
  | emit diagnostic => exact ⟨view, true, hview, fun _ => rfl⟩
  | start | flush | finish => exact ⟨view, begun, hview, fun _ => rfl⟩

/-- What a run shows is a list of fragments for each request, the same with colours and without. -/
theorem exists_parts (begun : Bool) (hview : view.EscapeFree) {requests : List Request}
    (h : ∀ request ∈ requests, request.EscapeFree) :
    ∃ parts : List (List Fragment),
      (∀ part ∈ parts, ∀ fragment ∈ part, EscapeFree fragment.text) ∧
      ∀ colors, outputs ⟨.human colors, view, begun⟩ requests =
        parts.map (Fragment.writeAll colors) := by
  induction requests generalizing view begun with
  | nil => exact ⟨[], by simp, fun _ => rfl⟩
  | cons request requests ih =>
    obtain ⟨hrequest, hlater⟩ := List.forall_mem_cons.1 h
    obtain ⟨first, hfirst, houtput⟩ := exists_fragments begun hview hrequest
    obtain ⟨view', begun', hview', hnext⟩ := exists_next begun hview hrequest
    obtain ⟨parts, hparts, houtputs⟩ := ih begun' hview' hlater
    refine ⟨first :: parts, List.forall_mem_cons.2 ⟨hfirst, hparts⟩, ?_⟩
    intro colors
    rw [outputs, houtput, hnext, houtputs, List.map_cons]

/-- **Colours.** An emitter that always writes colours writes what one that never does writes, but
for the escape sequences: request by request, and in all. -/
theorem erase_run (isTerminal isTerminal' : Bool) (hview : view.EscapeFree)
    {requests : List Request} (h : ∀ request ∈ requests, request.EscapeFree) :
    Style.erase ((ofForm (.human (ColorMode.always.resolve isTerminal)) view).run requests) =
        (ofForm (.human (ColorMode.never.resolve isTerminal')) view).run requests ∧
      ((ofForm (.human (ColorMode.always.resolve isTerminal)) view).outputs requests).map
          Style.erase =
        (ofForm (.human (ColorMode.never.resolve isTerminal')) view).outputs requests ∧
      EscapeFree ((ofForm (.human (ColorMode.never.resolve isTerminal')) view).run requests) := by
  obtain ⟨parts, hparts, houtputs⟩ := exists_parts false hview h
  have hfree : ∀ fragment ∈ parts.flatMap id, EscapeFree fragment.text := by
    intro fragment hmem
    obtain ⟨part, hpart, hfragment⟩ := List.mem_flatMap.1 hmem
    exact hparts part hpart fragment hfragment
  have hrun (colors : Bool) : (ofForm (.human colors) view).run requests =
      Fragment.writeAll colors (parts.flatMap id) :=
    (congrArg String.join (houtputs colors)).trans (Fragment.writeAll_flatMap colors parts id).symm
  show Style.erase ((ofForm (.human true) view).run requests) =
      (ofForm (.human false) view).run requests ∧
    ((ofForm (.human true) view).outputs requests).map Style.erase =
      (ofForm (.human false) view).outputs requests ∧
    EscapeFree ((ofForm (.human false) view).run requests)
  refine ⟨?_, ?_, ?_⟩
  · rw [hrun, hrun, Fragment.erase_writeAll hfree]
  · show (outputs ⟨.human true, view, false⟩ requests).map Style.erase =
      outputs ⟨.human false, view, false⟩ requests
    rw [houtputs, houtputs, List.map_map]
    exact List.map_congr_left fun part hpart => Fragment.erase_writeAll (hparts part hpart)
  · rw [hrun]
    exact Fragment.escapeFree_writeAll hfree

/-- A file and a problem whose texts look like escape sequences without their first character. -/
def bracketedRequests : List Request :=
  [.setFile ⟨some "[1m.go", some "`[0m:\"x\"`\n"⟩,
    .emit ⟨.unknownKey, "unknown tag key '[0m'", [⟨⟨1, 4⟩, "[1;31m"⟩], ["[1m"], ["[1;32m"]⟩,
    .finish 1]

/-- Deletion takes nothing of these texts, although most of them stand beside a sequence. -/
theorem erase_run_bracketedRequests :
    FileView.unknown.EscapeFree ∧ (∀ request ∈ bracketedRequests, request.EscapeFree) ∧
      (ofForm (.human (ColorMode.always.resolve false)) .unknown).run bracketedRequests =
        "\x1b[1;31merror\x1b[0m\x1b[1m[T0004]\x1b[0m: unknown tag key '[0m'\n" ++
          " --> [1m.go:1:2\n  |\n1 | `[0m:\"x\"`\n" ++
          "  |  \x1b[1;31m^^^\x1b[0m \x1b[1;31m[1;31m\x1b[0m\n" ++
          "  = \x1b[1mnote\x1b[0m: [1m\n  = \x1b[1;32mhelp\x1b[0m: [1;32m\n\n" ++
          "\x1b[1;31merror\x1b[0m: 1 tag problem found\n" ∧
      Style.erase
          ((ofForm (.human (ColorMode.always.resolve false)) .unknown).run bracketedRequests) =
        "error[T0004]: unknown tag key '[0m'\n --> [1m.go:1:2\n  |\n1 | `[0m:\"x\"`\n" ++
          "  |  ^^^ [1;31m\n  = note: [1m\n  = help: [1;32m\n\n" ++
          "error: 1 tag problem found\n" := by
  have hview : FileView.unknown.EscapeFree := by
    constructor <;> simp [FileView.unknown]
  have hrequests : ∀ request ∈ bracketedRequests, request.EscapeFree := by
    intro request hmem
    simp only [bracketedRequests, List.mem_cons, List.not_mem_nil, or_false] at hmem
    rcases hmem with rfl | rfl | rfl
    · exact ⟨by decide +kernel, by decide +kernel⟩
    · exact ⟨by decide +kernel, by decide +kernel, by decide +kernel, by decide +kernel⟩
    · exact trivial
  refine ⟨hview, hrequests, by decide +kernel, ?_⟩
  exact (erase_run false false hview hrequests).1.trans (by decide +kernel)

end Emitter

end TagLint
