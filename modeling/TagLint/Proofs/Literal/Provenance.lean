import TagLint.Proofs.Literal.Boundaries
import TagLint.Proofs.Tag.Spans
import TagLint.Text.Utf8.Lemmas

/-!
# Where the entries of a literal come from

`scan_provenance`: unless unquoting a literal has to replace bytes that are not UTF-8, the
text of the literal at the offsets of an entry means what the entry says. Decoding just the
part of the literal between the offsets of a value gives the value, and the key can be
decoded likewise from its offset on, up to some point not past the value.
-/

namespace TagLint

namespace Text

theorem decodeLossy_utf8 (cs : List Char) : decodeLossy (utf8 cs) = cs := by
  have hdecode := decodeLossy_utf8_append cs []
  rw [List.append_nil, decodeLossy, List.append_nil] at hdecode
  exact hdecode

end Text

namespace Literal

/-- The tokens of a literal that unquotes. -/
def tokens? (text : List Char) : Option (List Token) :=
  (body? text).bind fun (delimiter, body) => (tokens delimiter body).toOption

/-- The literal does not unquote, or all bytes it stands for are UTF-8. -/
def Lossless (text : List Char) : Prop :=
  ∀ tokens ∈ tokens? text,
    Text.utf8 (Text.decodeLossy (contentBytes tokens)) = contentBytes tokens

/-- What a piece of a literal means in its place. A literal that does not unquote means
what it says. -/
def decode? (text piece : List Char) : Option (List Char) :=
  match unquote text, delimiter? text with
  | .ok _, some .raw => some (piece.filter (· ≠ '\r'))
  | .ok _, some .interpreted => (unescape piece).toOption
  | _, _ => some piece

theorem eq_of_body? {text body : List Char} {delimiter : Delimiter}
    (h : body? text = some (delimiter, body)) :
    text = delimiter.quote :: (body ++ [delimiter.quote]) := by
  unfold body? at h
  split at h
  · rename_i hraw
    obtain ⟨rfl, rfl⟩ := Prod.mk.inj (Option.some.inj h)
    exact Delimiter.eq_of_body? hraw
  · obtain ⟨other, hinterpreted, hpair⟩ := Option.map_eq_some_iff.1 h
    obtain ⟨rfl, rfl⟩ := Prod.mk.inj hpair
    exact Delimiter.eq_of_body? hinterpreted

theorem utf8Size_quote (delimiter : Delimiter) : delimiter.quote.utf8Size = 1 := by
  cases delimiter <;> rfl

/-- A literal is two bytes longer than its body. -/
theorem byteLength_of_body? {text body : List Char} {delimiter : Delimiter}
    (h : body? text = some (delimiter, body)) :
    Text.byteLength text = Text.byteLength body + 2 := by
  rw [eq_of_body? h, Text.byteLength_cons, Text.byteLength_concat, utf8Size_quote]
  omega

theorem tokens?_eq_some {text body : List Char} {delimiter : Delimiter} {ts : List Token}
    (hbody : body? text = some (delimiter, body)) (htokens : tokens delimiter body = .ok ts) :
    tokens? text = some ts := by
  simp [tokens?, hbody, htokens, Except.toOption]

/-- Unquoting tokenizes the body. -/
theorem exists_tokens_of_unquote {text : List Char} {unquoted : Unquoted}
    (h : unquote text = .ok unquoted) :
    ∃ delimiter body ts, body? text = some (delimiter, body) ∧ tokens delimiter body = .ok ts ∧
      unquoted = .ofTokens ts := by
  unfold unquote at h
  split at h
  · cases h
  · rename_i delimiter body hbody
    obtain ⟨ts, htokens, rfl⟩ := ok_of_map_eq_ok h
    exact ⟨delimiter, body, ts, hbody, htokens, rfl⟩

/-- Some tokens of a literal are decoded alone as in their place. -/
theorem decode?_sources {text body piece : List Char} {unquoted : Unquoted}
    {delimiter : Delimiter} {ts : List Token} (hunquote : unquote text = .ok unquoted)
    (hbody : body? text = some (delimiter, body))
    (hproper : ∀ token ∈ ts, token.Proper delimiter)
    (hbytes : contentBytes ts = Text.utf8 piece) : decode? text (sources ts) = some piece := by
  have hdelimiter : delimiter? text = some delimiter := by rw [delimiter?, hbody]; rfl
  have htokens : tokensFrom delimiter 0 (sources ts) = .ok ts :=
    tokensFrom_eq_ok_iff.2 ⟨rfl, hproper⟩
  rw [decode?, hunquote, hdelimiter]
  cases delimiter with
  | raw =>
    have hfilter := (contentBytes_of_raw htokens).symm.trans hbytes
    have hdecode := congrArg Text.decodeLossy hfilter
    rw [Text.decodeLossy_utf8, Text.decodeLossy_utf8] at hdecode
    exact congrArg some hdecode
  | interpreted =>
    have hcontent : unescape (sources ts) = .ok piece := by
      rw [unescape, tokens_eq_tokensFrom, htokens]
      simp only [Except.map, Unquoted.ofTokens, hbytes, Text.decodeLossy_utf8]
    simp only [hcontent, Except.toOption]

/-- A text in the content is what some tokens of the body in a row stand for, and the map is exact
at both ends of them. -/
theorem exists_tokens_of_spells {text piece : List Char} {unquoted : Unquoted} {span : Span}
    (hunquote : unquote text = .ok unquoted) (hlossless : Lossless text)
    (hlimit : Text.byteLength text ≤ Offset.limit)
    (hspells : span.Spells unquoted.content piece) :
    ∃ delimiter first middle last,
      body? text = some (delimiter, sources (first ++ (middle ++ last))) ∧
      (∀ token ∈ first ++ (middle ++ last), token.Proper delimiter) ∧
      contentBytes middle = Text.utf8 piece ∧ BeginsLoud (middle ++ last) ∧
      unquoted.map.toBody span.start = Text.byteLength (sources first) ∧
      unquoted.map.toBody span.stop = Text.byteLength (sources (first ++ middle)) := by
  obtain ⟨delimiter, body, ts, hbody, htokens, rfl⟩ := exists_tokens_of_unquote hunquote
  have hvalid : Text.utf8 (Text.decodeLossy (contentBytes ts)) = contentBytes ts :=
    hlossless ts (tokens?_eq_some hbody htokens)
  rw [tokens_eq_tokensFrom, tokensFrom_eq_ok_iff] at htokens
  obtain ⟨rfl, hproper⟩ := htokens
  obtain ⟨before, after, hcontent, rfl⟩ := hspells
  have hbytes : contentBytes ts = Text.utf8 before ++ Text.utf8 (piece ++ after) := by
    rw [← hvalid, ← Text.utf8_append, ← hcontent]
    rfl
  -- The text begins and ends between tokens, so it is what some tokens in a row stand for.
  obtain ⟨first, later, rfl, hfirst, hlater, hloud⟩ :=
    exists_split_of_boundary hproper hbytes (beginsChar_utf8 _)
  rw [Text.utf8_append] at hlater
  obtain ⟨middle, last, rfl, hmiddle, -, hloud'⟩ := exists_split_of_boundary
    (fun token htoken => hproper token (List.mem_append_right _ htoken)) hlater
    (beginsChar_utf8 _)
  have hlength := byteLength_of_body? hbody
  have hbodyLimit : Text.byteLength (sources (first ++ (middle ++ last))) ≤ Offset.limit := by
    omega
  have hshort : ∀ token ∈ first ++ (middle ++ last), token.bytes.length ≤ token.width :=
    fun token htoken => (hproper token htoken).length_le
  have hstart := OffsetMap.toBody_contentBytes hshort hloud hbodyLimit
  rw [hfirst, Text.length_utf8] at hstart
  rw [← List.append_assoc] at hshort hbodyLimit
  have hstop := OffsetMap.toBody_contentBytes hshort hloud' hbodyLimit
  rw [contentBytes_append, hfirst, hmiddle, List.length_append, Text.length_utf8,
    Text.length_utf8, List.append_assoc] at hstop
  exact ⟨delimiter, first, middle, last, hbody, hproper, hmiddle, hloud, hstart, hstop⟩

/-- A text in the content is a text in the literal that means it, where the map says. -/
theorem exists_spells_of_unquote {text piece : List Char} {unquoted : Unquoted} {span : Span}
    (hunquote : unquote text = .ok unquoted) (hlossless : Lossless text)
    (hlimit : Text.byteLength text ≤ Offset.limit)
    (hspells : span.Spells unquoted.content piece) :
    ∃ source, (⟨1 + unquoted.map.toBody span.start, 1 + unquoted.map.toBody span.stop⟩ :
        Span).Spells text source ∧ decode? text source = some piece := by
  obtain ⟨delimiter, first, middle, last, hbody, hproper, hmiddle, -, hstart, hstop⟩ :=
    exists_tokens_of_spells hunquote hlossless hlimit hspells
  have hquote := utf8Size_quote delimiter
  refine ⟨sources middle, ⟨delimiter.quote :: sources first, sources last ++ [delimiter.quote],
    ?_, ?_⟩, decode?_sources hunquote hbody ?_ hmiddle⟩
  · rw [eq_of_body? hbody]
    simp
  · simp [hstart, hstop, hquote, Nat.add_assoc]
  · intro token htoken
    exact hproper token (List.mem_append_right _ (List.mem_append_left _ htoken))

/-! ## Prepared literals -/

/-- A text in the trimmed content stands in the literal itself. -/
theorem spells_of_trimmed {text piece : List Char} {error : UnquoteError} {span : Span}
    (hlimit : Text.byteLength text ≤ Offset.limit)
    (hspells : span.Spells (trimmed text error).content piece) :
    (⟨(trimmed text error).literalOffset span.start,
      (trimmed text error).literalOffset span.stop⟩ : Span).Spells text piece := by
  obtain ⟨before, after, hcontent, rfl⟩ := hspells
  obtain ⟨dropped, hdropped⟩ := List.rdropWhile_prefix isQuote (text.dropWhile isQuote)
  have htext : text = text.takeWhile isQuote ++ before ++ (piece ++ (after ++ dropped)) := by
    have hcontent : Text.dropEndWhile isQuote (text.dropWhile isQuote) =
        before ++ (piece ++ after) := hcontent
    rw [← Text.dropEndWhile_eq_rdropWhile, hcontent] at hdropped
    calc text = text.takeWhile isQuote ++ text.dropWhile isQuote :=
          List.takeWhile_append_dropWhile.symm
      _ = text.takeWhile isQuote ++ before ++ (piece ++ (after ++ dropped)) := by
          rw [← hdropped]
          simp
  have hlength := congrArg Text.byteLength htext
  simp only [Text.byteLength_append] at hlength
  have hoffset {offset : Nat} (h : offset ≤ Text.byteLength before + Text.byteLength piece) :
      (trimmed text error).literalOffset offset =
        Text.byteLength (text.takeWhile isQuote) + offset := by
    have hbody : OffsetMap.identity.toBody offset = offset :=
      OffsetMap.toBody_identity (by lia)
    have hstart : Offset.clamp (Text.byteLength (text.takeWhile isQuote)) =
        Text.byteLength (text.takeWhile isQuote) := Offset.clamp_of_le (by omega)
    have hsum : Offset.shift (Text.byteLength (text.takeWhile isQuote)) offset =
        Text.byteLength (text.takeWhile isQuote) + offset := Offset.shift_of_le (by omega)
    rw [Prepared.literalOffset, trimmed, hbody, hstart, hsum]
  refine ⟨_, _, htext, ?_⟩
  rw [hoffset (Nat.le_add_right _ _), hoffset (Nat.le_refl _), Text.byteLength_append]
  simp [Nat.add_assoc]

/-- A text in the content that is scanned is a text in the literal that means it. -/
theorem exists_spells_of_prepare {text piece : List Char} {span : Span}
    (hlossless : Lossless text) (hlimit : Text.byteLength text ≤ Offset.limit)
    (hspells : span.Spells (prepare text).content piece) :
    ∃ source, (⟨(prepare text).literalOffset span.start,
        (prepare text).literalOffset span.stop⟩ : Span).Spells text source ∧
      decode? text source = some piece := by
  unfold prepare at hspells ⊢
  cases hunquote : unquote text with
  | ok unquoted =>
    rw [hunquote] at hspells
    obtain ⟨source, hsource, hdecode⟩ :=
      exists_spells_of_unquote hunquote hlossless hlimit hspells
    have hstop := Nat.le_trans hsource.stop_le hlimit
    have hstart := Nat.le_trans (Span.Cuts.start_le ⟨_, hsource⟩) hstop
    refine ⟨source, ?_, hdecode⟩
    simpa only [Prepared.literalOffset, Offset.shift_of_le hstart, Offset.shift_of_le hstop]
      using hsource
  | error error =>
    rw [hunquote] at hspells
    refine ⟨piece, spells_of_trimmed hlimit hspells, ?_⟩
    rw [decode?, hunquote]

/-- Later content offsets never lie earlier in the literal. -/
theorem literalOffset_mono (text : List Char) {first second : Nat} (h : first ≤ second) :
    (prepare text).literalOffset first ≤ (prepare text).literalOffset second := by
  have hbody : (prepare text).map.toBody first ≤ (prepare text).map.toBody second := by
    unfold prepare
    cases hunquote : unquote text with
    | ok unquoted =>
      obtain ⟨delimiter, body, ts, -, htokens, rfl⟩ := exists_tokens_of_unquote hunquote
      rw [tokens_eq_tokensFrom, tokensFrom_eq_ok_iff] at htokens
      exact OffsetMap.toBody_mono ts h fun token htoken => (htokens.2 token htoken).length_le
    | error error => exact OffsetMap.toBody_mono [] h (by simp)
  exact Offset.clamp_mono (Nat.add_le_add_left hbody _)

end Literal

/-! ## Entries -/

/-- The text of the literal between two source offsets means the given text. -/
def TagLiteral.Reads (literal : TagLiteral) (start stop : Offset) (meaning : String) : Prop :=
  ∃ (span : Span) (piece : List Char), span.Spells literal.text.toList piece ∧
    start = literal.offset + span.start ∧ stop = literal.offset + span.stop ∧
    Literal.decode? literal.text.toList piece = some meaning.toList

theorem TagLiteral.entries_scan (literal : TagLiteral) :
    literal.scan.entries =
      let prepared := Literal.prepare literal.text.toList
      (rawEntries prepared.content).map (Entry.ofRaw prepared.content fun offset =>
        Offset.shift literal.offset (prepared.literalOffset offset)) := by
  unfold TagLiteral.scan
  split
  · rename_i hempty
    rw [String.isEmpty_iff] at hempty
    rw [hempty]
    rfl
  · dsimp only
    split <;> rfl

/-- What a raw entry has in the content has its source in the literal. -/
theorem TagLiteral.reads_of_cuts {literal : TagLiteral} {span : Span}
    (hfits : literal.offset + literal.text.utf8ByteSize ≤ Offset.limit)
    (hlossless : Literal.Lossless literal.text.toList)
    (hcuts : span.Cuts (Literal.prepare literal.text.toList).content) :
    literal.Reads
      (Offset.shift literal.offset
        ((Literal.prepare literal.text.toList).literalOffset span.start))
      (Offset.shift literal.offset
        ((Literal.prepare literal.text.toList).literalOffset span.stop))
      (span.cut (Literal.prepare literal.text.toList).content) := by
  rw [← Text.byteLength_toList] at hfits
  obtain ⟨text, hspells⟩ := hcuts
  obtain ⟨source, hsource, hdecode⟩ := Literal.exists_spells_of_prepare hlossless
    (Nat.le_trans (Nat.le_add_left _ _) hfits) hspells
  have hstop := hsource.stop_le
  have hstart := Span.Cuts.start_le ⟨_, hsource⟩
  refine ⟨_, source, hsource, ?_, ?_, ?_⟩
  · exact Offset.shift_of_le (Nat.le_trans (Nat.add_le_add_left (Nat.le_trans hstart hstop) _)
      hfits)
  · exact Offset.shift_of_le (Nat.le_trans (Nat.add_le_add_left hstop _) hfits)
  · rw [Span.cut_of_spells hspells, String.toList_ofList]
    exact hdecode

theorem scan_provenance (literal : TagLiteral)
    (hfits : literal.offset + literal.text.utf8ByteSize ≤ Offset.limit)
    (hlossless : Literal.Lossless literal.text.toList) :
    ∀ entry ∈ literal.scan.entries,
      (entry.value ≠ "" → literal.Reads entry.valueOffset entry.valueEnd entry.value) ∧
      (entry.key ≠ "" → ∃ stop ≤ entry.valueOffset,
        literal.Reads entry.keyOffset stop entry.key) := by
  intro entry hentry
  rw [TagLiteral.entries_scan] at hentry
  obtain ⟨raw, hraw, rfl⟩ := List.mem_map.1 hentry
  have hraw := fits_of_mem_rawEntries hraw
  constructor
  · intro hvalue
    rcases hraw.value with hcuts | hpoint
    · exact TagLiteral.reads_of_cuts hfits hlossless hcuts
    · exact absurd (Span.cut_eq_empty hpoint _) hvalue
  · intro _
    refine ⟨_, ?_, TagLiteral.reads_of_cuts hfits hlossless hraw.key⟩
    exact Offset.clamp_mono
      (Nat.add_le_add_left (Literal.literalOffset_mono _ hraw.key_le_value) _)

/-- An interpreted literal whose value has an escape of six bytes for a character of two. -/
def escapedLiteral : TagLiteral := ⟨"\"id:\\\"\\u00e9!\\\"\"", 10⟩

theorem scan_provenance_escapedLiteral :
    escapedLiteral.scan.entries = [⟨"id", "\u00e9!", 11, 16, 23, true, false, true⟩] ∧
      escapedLiteral.Reads 16 23 "\u00e9!" ∧
      ∃ stop ≤ 16, escapedLiteral.Reads 11 stop "id" := by
  have hlossless : Literal.Lossless escapedLiteral.text.toList := by
    unfold Literal.Lossless
    decide +kernel
  have hentries : escapedLiteral.scan.entries =
      [⟨"id", "\u00e9!", 11, 16, 23, true, false, true⟩] := by
    decide +kernel
  have hentry := scan_provenance escapedLiteral (by decide) hlossless _
    (hentries ▸ List.mem_singleton_self _)
  exact ⟨hentries, hentry.1 (by decide), hentry.2 (by decide)⟩

end TagLint
