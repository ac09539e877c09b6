import TagLint.Diagnostic.OfProblem
import TagLint.Proofs.Lint.Origins
import TagLint.Proofs.Literal.Verbatim

/-!
# The label of an unknown key

The label of an unknown key begins where the key is written, and it is as long as the key. The key
may be written with escape sequences, or with carriage returns that a raw literal drops, and then
its source is longer (`TagLiteral.Writes`). So the label covers the whole key if and only if the
key is written as it reads, and part of it otherwise (`unknownKey_label`).
-/

namespace TagLint

namespace TagLiteral

/-- A text of the content is written at an offset of the source as these tokens. They reach from
the first to the last that stands for some byte of the text. -/
structure Writes (literal : TagLiteral) (offset : Offset) (text : String)
    (tokens : List Literal.Token) : Prop where
  place : ∃ delimiter body before after,
    Literal.body? literal.text.toList = some (delimiter, body) ∧
    Literal.IsSplit delimiter body (before ++ (tokens ++ after)) ∧
    offset = literal.offset + 1 + Text.byteLength (Literal.sources before)
  bytes : Literal.contentBytes tokens = Text.utf8 text.toList
  begins : Literal.BeginsLoud tokens
  ends : Literal.EndsLoud tokens

section Writes

variable {literal : TagLiteral} {unquoted : Literal.Unquoted}

/-- An offset of the content of a literal that unquotes, moved into the source. -/
theorem toSource_of_unquote (hunquote : Literal.unquote literal.text.toList = .ok unquoted)
    {offset : Offset}
    (hlimit : literal.offset + 1 + unquoted.map.toBody offset ≤ Offset.limit) :
    literal.toSource offset = literal.offset + 1 + unquoted.map.toBody offset := by
  have hliteral : (Literal.prepare literal.text.toList).literalOffset offset =
      1 + unquoted.map.toBody offset := by
    rw [Literal.prepare, hunquote]
    show Offset.shift 1 (unquoted.map.toBody offset) = 1 + unquoted.map.toBody offset
    exact Offset.shift_of_le (by lia)
  rw [toSource, hliteral, Nat.add_assoc]
  exact Offset.shift_of_le (by lia)

/-- What stands in the content is written in the literal, where the offset map says. -/
theorem exists_writes_of_spells (hunquote : Literal.unquote literal.text.toList = .ok unquoted)
    (hfits : literal.offset + literal.text.utf8ByteSize ≤ Offset.limit)
    (hlossless : Literal.Lossless literal.text.toList) {span : Span} {text : List Char}
    (hne : text ≠ []) (hspells : span.Spells unquoted.content text) :
    ∃ tokens, literal.Writes (literal.toSource span.start) (String.ofList text) tokens := by
  rw [← Text.byteLength_toList] at hfits
  obtain ⟨delimiter, first, middle, last, hbody, hproper, hbytes, hbegins, hstart, -⟩ :=
    Literal.exists_tokens_of_spells hunquote hlossless
      (Nat.le_trans (Nat.le_add_left _ _) hfits) hspells
  obtain ⟨loud, silent, rfl, hends, hsilent⟩ := Literal.exists_endsLoud middle
  rw [Literal.contentBytes_append, hsilent, List.append_nil] at hbytes
  have hlength := Literal.byteLength_of_body? hbody
  have hplace : literal.toSource span.start =
      literal.offset + 1 + Text.byteLength (Literal.sources first) := by
    rw [Literal.sources_append, Text.byteLength_append] at hlength
    rw [toSource_of_unquote hunquote (by lia), hstart]
  refine ⟨loud, ⟨delimiter, _, first, silent ++ last, hbody, ?_, hplace⟩, ?_, ?_, hends⟩
  · rw [← Literal.tokens_eq_ok_iff, Literal.tokens_eq_tokensFrom, Literal.tokensFrom_eq_ok_iff,
      ← List.append_assoc loud]
    exact ⟨rfl, hproper⟩
  · rwa [String.toList_ofList]
  · cases loud with
    | nil =>
      rw [eq_comm, Literal.contentBytes_nil] at hbytes
      cases text with
      | nil => exact absurd rfl hne
      | cons c text => simp at hbytes
    | cons token loud => exact hbegins

namespace Writes

variable {offset : Offset} {text : String} {tokens : List Literal.Token}

/-- A text is never longer than it is written. -/
theorem utf8ByteSize_le (h : literal.Writes offset text tokens) :
    text.utf8ByteSize ≤ Text.byteLength (Literal.sources tokens) := by
  obtain ⟨delimiter, body, before, after, -, hsplit, -⟩ := h.place
  have hshort := @Literal.length_contentBytes_le tokens fun token htoken =>
    (hsplit.isToken token (by simp [htoken])).proper.length_le
  rwa [h.bytes, Text.length_utf8, Text.byteLength_toList] at hshort

/-- What is written stands in the literal. -/
theorem exists_spells (h : literal.Writes offset text tokens) :
    ∃ span : Span, span.Spells literal.text.toList (Literal.sources tokens) ∧
      offset = literal.offset + span.start := by
  obtain ⟨delimiter, body, before, after, hbody, hsplit, hplace⟩ := h.place
  refine ⟨_, ⟨delimiter.quote :: Literal.sources before,
    Literal.sources after ++ [delimiter.quote], ?_, rfl⟩, ?_⟩
  · rw [Literal.eq_of_body? hbody, ← hsplit.spells]
    simp
  · rw [hplace, Text.byteLength_cons, Literal.utf8Size_quote, Nat.add_assoc]

/-- What is written as a text reads as the text. -/
theorem reads (hunquote : Literal.unquote literal.text.toList = .ok unquoted)
    (h : literal.Writes offset text tokens) :
    literal.Reads offset (offset + Text.byteLength (Literal.sources tokens)) text := by
  obtain ⟨span, hspells, hstart⟩ := h.exists_spells
  obtain ⟨delimiter, body, before, after, hbody, hsplit, -⟩ := h.place
  refine ⟨span, Literal.sources tokens, hspells, hstart, ?_, ?_⟩
  · rw [hstart, ← hspells.start_add, Nat.add_assoc]
  · refine Literal.decode?_sources hunquote hbody ?_ h.bytes
    intro token htoken
    exact (hsplit.isToken token (by simp [htoken])).proper

/-- Where a text is written, as many bytes as it has read as the text only if they are the text. -/
theorem sources_eq (hunquote : Literal.unquote literal.text.toList = .ok unquoted)
    (h : literal.Writes offset text tokens)
    (hreads : literal.Reads offset (offset + text.utf8ByteSize) text) :
    Literal.sources tokens = text.toList := by
  have hlong := h.utf8ByteSize_le
  obtain ⟨written, hspells, hplace⟩ := h.exists_spells
  obtain ⟨delimiter, body, before, after, hbody, hsplit, -⟩ := h.place
  obtain ⟨span, piece, hpiece, hstart, hstop, hdecode⟩ := hreads
  have hsize := hpiece.start_add
  have hend := hspells.start_add
  obtain ⟨more, hmore⟩ := hpiece.isPrefix hspells (by lia) (by lia)
  obtain ⟨rfl, hmark⟩ := Literal.verbatim_of_decode? hunquote hbody hdecode
    (by rw [Text.byteLength_toList]; lia)
  refine Literal.sources_eq_of_append ?_ hmore.symm h.bytes h.ends hmark
  intro token htoken
  exact hsplit.isToken token (by simp [htoken])

end Writes

end Writes

end TagLiteral

/-! ## The label -/

/-- **Underlining.** The label of an unknown key begins where the key is written and is never longer
than that. It covers exactly the key if and only if the key is written as it reads. -/
theorem unknownKey_label {literal : TagLiteral} {unquoted : Literal.Unquoted} {allowed : AllowList}
    {key : String} {offset : Offset}
    (hfits : literal.offset + literal.text.utf8ByteSize ≤ Offset.limit)
    (hunquote : Literal.unquote literal.text.toList = .ok unquoted)
    (hlossless : Literal.Lossless literal.text.toList)
    (h : ⟨.unknownKey key, offset⟩ ∈ literal.check allowed) :
    (Problem.toDiagnostic ⟨.unknownKey key, offset⟩).labels.map Label.span =
        [⟨offset, offset + key.utf8ByteSize⟩] ∧
      ∃ tokens, literal.Writes offset key tokens ∧
        literal.Reads offset (offset + Text.byteLength (Literal.sources tokens)) key ∧
        key.utf8ByteSize ≤ Text.byteLength (Literal.sources tokens) ∧
        (literal.Reads offset (offset + key.utf8ByteSize) key ↔
          Literal.sources tokens = key.toList) := by
  obtain ⟨raw, hraw, hcut, hne, rfl⟩ := TagLiteral.exists_key_of_mem_check h
  have hcontent : literal.content = unquoted.content := by
    simp only [TagLiteral.content, Literal.prepare, hunquote]
  have hspells := (fits_of_mem_rawEntries hraw).key.spells_cut
  rw [hcut, hcontent] at hspells
  obtain ⟨tokens, hwrites⟩ := TagLiteral.exists_writes_of_spells hunquote hfits hlossless
    (by simpa using hne) hspells
  rw [String.ofList_toList] at hwrites
  have hreads := hwrites.reads hunquote
  have hsize := hwrites.utf8ByteSize_le
  have hroom : literal.toSource raw.key.start + Text.byteLength (Literal.sources tokens) ≤
      Offset.limit := by
    obtain ⟨span, piece, hpiece, -, hstop, -⟩ := hreads
    have hinside := hpiece.stop_le
    rw [Text.byteLength_toList] at hinside
    lia
  refine ⟨?_, tokens, hwrites, hreads, hsize, hwrites.sources_eq hunquote, ?_⟩
  · have hclamp : Offset.clamp key.utf8ByteSize = key.utf8ByteSize := Offset.clamp_of_le (by lia)
    have hshift : Offset.shift (literal.toSource raw.key.start) key.utf8ByteSize =
        literal.toSource raw.key.start + key.utf8ByteSize := Offset.shift_of_le (by lia)
    simp [Problem.toDiagnostic, Problem.labelSpan, hclamp, hshift]
  · intro hsources
    rwa [hsources, Text.byteLength_toList] at hreads

/-- A key of five bytes that is written in nine, and one that is written as it reads. -/
def escapedKeys : TagLiteral := ⟨"\"caf\\u00e9:\\\"x\\\" id:\\\"y\\\"\"", 20⟩

/-- Two unknown keys of one literal. The label of the first ends inside an escape sequence. -/
theorem unknownKey_label_escapedKeys :
    20 + escapedKeys.text.utf8ByteSize ≤ Offset.limit ∧
      (Literal.unquote escapedKeys.text.toList).isOk ∧ Literal.Lossless escapedKeys.text.toList ∧
      escapedKeys.check .empty = [⟨.unknownKey "caf\u00e9", 21⟩, ⟨.unknownKey "id", 37⟩] ∧
      (Problem.toDiagnostic ⟨.unknownKey "caf\u00e9", 21⟩).labels.map Label.span = [⟨21, 26⟩] ∧
      (Problem.toDiagnostic ⟨.unknownKey "id", 37⟩).labels.map Label.span = [⟨37, 39⟩] ∧
      ∃ first second, escapedKeys.Writes 21 "caf\u00e9" first ∧ escapedKeys.Writes 37 "id" second ∧
        (escapedKeys.Reads 21 26 "caf\u00e9" ↔ Literal.sources first = "caf\u00e9".toList) ∧
        (escapedKeys.Reads 37 39 "id" ↔ Literal.sources second = "id".toList) := by
  have hlossless : Literal.Lossless escapedKeys.text.toList := by
    unfold Literal.Lossless
    decide +kernel
  have hcheck : escapedKeys.check .empty =
      [⟨.unknownKey "caf\u00e9", 21⟩, ⟨.unknownKey "id", 37⟩] := by
    decide +kernel
  have hunquote : Literal.unquote escapedKeys.text.toList =
      .ok ⟨"caf\u00e9:\"x\" id:\"y\"".toList,
        ⟨[⟨5, 4⟩, ⟨7, 5⟩, ⟨9, 6⟩, ⟨14, 7⟩, ⟨16, 8⟩]⟩⟩ := by
    decide +kernel
  obtain ⟨hfirst, first, hfirsts, -, -, hcovers⟩ := unknownKey_label (by decide) hunquote hlossless
    (hcheck ▸ List.mem_cons_self)
  obtain ⟨hsecond, second, hseconds, -, -, hcovers'⟩ := unknownKey_label (by decide) hunquote
    hlossless (hcheck ▸ List.mem_cons_of_mem _ List.mem_cons_self)
  exact ⟨by decide, by rw [hunquote]; rfl, hlossless, hcheck, hfirst, hsecond, first, second,
    hfirsts, hseconds, hcovers, hcovers'⟩

/-- The first five bytes of a key end inside an escape sequence, and so decode to nothing. -/
theorem not_forall_unknownKey_label :
    ¬ ∀ (literal : TagLiteral) (allowed : AllowList) (key : String) (offset : Offset),
      literal.offset + literal.text.utf8ByteSize ≤ Offset.limit →
      (Literal.unquote literal.text.toList).isOk →
      Literal.Lossless literal.text.toList →
      ⟨.unknownKey key, offset⟩ ∈ literal.check allowed →
      ∀ label ∈ (Problem.toDiagnostic ⟨.unknownKey key, offset⟩).labels,
        literal.Reads label.span.start label.span.stop key := by
  intro h
  have hlossless : Literal.Lossless "\"caf\\u00e9:\\\"x\\\"\"".toList := by
    unfold Literal.Lossless
    decide +kernel
  obtain ⟨span, piece, hspells, hstart, hstop, hdecode⟩ :=
    h ⟨"\"caf\\u00e9:\\\"x\\\"\"", 0⟩ .empty "caf\u00e9" 1 (by decide) (by decide +kernel) hlossless
      (by decide +kernel) _ (List.mem_singleton_self _)
  have hspan : span = ⟨1, 6⟩ := by
    have hstart : 1 = 0 + span.start := hstart
    have hstop : 6 = 0 + span.stop := hstop
    rw [Nat.zero_add] at hstart hstop
    rw [hstart, hstop]
  have hpiece : String.ofList piece = "caf\\u" := by
    rw [← Span.cut_of_spells hspells, hspan]
    decide +kernel
  rw [← String.toList_ofList (l := piece), hpiece] at hdecode
  revert hdecode
  decide +kernel

end TagLint
