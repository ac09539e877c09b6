import TagLint.Proofs.Tag.QuotedValues
import TagLint.Proofs.Tag.RoundTrip

/-!
# Texts written between quotes

Any text can be written between double quotes: a backslash goes before every backslash and every
quote, and a newline is written as an escape sequence. Each character becomes one token of an
interpreted body, so unescaping reads the text back, and so does unquoting it as a literal.

The scanner knows nothing of tokens. That it closes such a value at the right quote rests on the
parity of backslashes: the tokens before an escaped quote end in an even run of them
(`backslashesAtEnd_sources`), and the backslash of its own token makes the run odd.
-/

namespace TagLint

namespace Literal

/-- How a character is written between double quotes. -/
def quoteChar : Char → List Char
  | '\\' => ['\\', '\\']
  | '"' => ['\\', '"']
  | '\n' => ['\\', 'n']
  | c => [c]

/-- A text as it is written between double quotes. -/
def quoted (text : List Char) : List Char := text.flatMap quoteChar

/-- The tokens that a text is written in, one for each character. -/
def quotedTokens (text : List Char) : List Token :=
  text.map fun c => ⟨quoteChar c, String.utf8EncodeChar c⟩

theorem quoted_concat (text : List Char) (c : Char) :
    quoted (text ++ [c]) = quoted text ++ quoteChar c := by
  simp [quoted]

theorem sources_quotedTokens (text : List Char) : sources (quotedTokens text) = quoted text := by
  simp [sources, quotedTokens, quoted, List.flatMap_map]

theorem contentBytes_quotedTokens (text : List Char) :
    contentBytes (quotedTokens text) = Text.utf8 text := by
  simp [contentBytes, quotedTokens, Text.utf8, List.flatMap_map]

theorem isToken_quoteChar (c : Char) : IsToken ⟨quoteChar c, String.utf8EncodeChar c⟩ := by
  unfold quoteChar
  split
  · exact .escape (@IsEscape.named '\\' 0x5C (by decide))
  · exact .escape (@IsEscape.named '"' 0x22 (by decide))
  · exact .escape (@IsEscape.named 'n' 0x0A (by decide))
  · next hbackslash hquote hnewline => exact .plain hquote hbackslash hnewline

theorem isToken_of_mem_quotedTokens {text : List Char} :
    ∀ token ∈ quotedTokens text, IsToken token := by
  intro token htoken
  obtain ⟨c, -, rfl⟩ := List.mem_map.1 htoken
  exact isToken_quoteChar c

theorem tokens_quoted (text : List Char) :
    tokens .interpreted (quoted text) = .ok (quotedTokens text) :=
  interpretedTokens_eq_ok_iff.2 ⟨isToken_of_mem_quotedTokens, sources_quotedTokens text⟩

theorem content_quotedTokens (text : List Char) :
    (Unquoted.ofTokens (quotedTokens text)).content = text := by
  rw [Unquoted.ofTokens, contentBytes_quotedTokens, Text.decodeLossy_utf8]

theorem unescape_quoted (text : List Char) : unescape (quoted text) = .ok text := by
  rw [unescape, tokens_quoted]
  exact congrArg Except.ok (content_quotedTokens text)

theorem body?_between_quotes (body : List Char) :
    body? ('"' :: (body ++ ['"'])) = some (.interpreted, body) := by
  have hraw : Delimiter.raw.body? ('"' :: (body ++ ['"'])) = none := by
    simp [Delimiter.body?, Delimiter.quote]
  have hinterpreted : Delimiter.interpreted.body? ('"' :: (body ++ ['"'])) = some body := by
    simp [Delimiter.body?, Delimiter.quote]
  rw [body?, hraw, hinterpreted]
  rfl

theorem unquote_quoted (text : List Char) :
    (unquote ('"' :: (quoted text ++ ['"']))).map Unquoted.content = .ok text := by
  rw [unquote, body?_between_quotes]
  simp only [tokens_quoted]
  exact congrArg Except.ok (content_quotedTokens text)

/-- Where the text needs no escape sequence, what is taken as it is is the text. -/
theorem content_of_borrow?_quoted {text : List Char} {unquoted : Unquoted}
    (h : borrow? (quoted text) = some unquoted) : unquoted.content = text := by
  have hread := map_ofTokens_of_borrow? h
  rw [tokens_quoted] at hread
  obtain rfl := Except.ok.inj hread
  exact content_quotedTokens text

/-! ## What the scanner sees -/

theorem backslashesAtEnd_quoted (text : List Char) : backslashesAtEnd (quoted text) % 2 = 0 := by
  rw [← sources_quotedTokens]
  exact backslashesAtEnd_sources isToken_of_mem_quotedTokens

theorem quotesEscaped_quoted (text : List Char) : QuotesEscaped (quoted text) := by
  induction text using List.reverseRecOn with
  | nil => exact quotesEscaped_nil
  | append_singleton text c ih =>
    -- A backslash after whole tokens makes the run odd, whatever it stands before.
    have hescape (d : Char) : QuotesEscaped (quoted text ++ ['\\', d]) := by
      rw [List.append_cons, quotesEscaped_concat, quotesEscaped_concat, backslashesAtEnd_concat]
      have heven := backslashesAtEnd_quoted text
      refine ⟨⟨ih, by simp⟩, fun _ => ?_⟩
      rw [if_pos rfl]
      omega
    rw [quoted_concat]
    unfold quoteChar
    split
    · exact hescape '\\'
    · exact hescape '"'
    · exact hescape 'n'
    · next hquote _ => exact quotesEscaped_concat.2 ⟨ih, fun h => absurd h hquote⟩

/-- A control character at the start is harmless only if it is written as an escape sequence. -/
theorem not_isControl_head_quoted {text : List Char}
    (h : ∀ c ∈ text.head?, Text.isControl c = true → c = '\n') {c : Char} {rest : List Char}
    (hquoted : quoted text = c :: rest) : Text.isControl c = false := by
  cases text with
  | nil => cases hquoted
  | cons first text =>
    have hfirst := h first rfl
    rw [quoted, List.flatMap_cons] at hquoted
    unfold quoteChar at hquoted
    split at hquoted
    · obtain rfl := (List.cons.inj hquoted).1
      decide
    · obtain rfl := (List.cons.inj hquoted).1
      decide
    · obtain rfl := (List.cons.inj hquoted).1
      decide
    · next hnewline =>
      obtain rfl := (List.cons.inj hquoted).1
      exact Bool.eq_false_iff.2 (mt hfirst hnewline)

end Literal

open Literal

/-- The pair of a plain key and any text, written between quotes. -/
def quotedPair (key text : List Char) (hkey : key ≠ []) (hplain : ∀ c ∈ key, isKeyChar c = true)
    (hhead : ∀ c ∈ text.head?, Text.isControl c = true → c = '\n') : WrittenPair where
  key := key
  value := quoted text
  key_ne_nil := hkey
  key_plain := hplain
  value_head := fun _ _ hquoted => not_isControl_head_quoted hhead hquoted
  value_escaped := quotesEscaped_quoted text
  value_even := backslashesAtEnd_quoted text

/-- One pair alone is a tag. -/
theorem scan_pair (pair : WrittenPair) (hfits : Text.byteLength pair.text ≤ Offset.limit) :
    scan pair.text 0 = ⟨[pair.entry 0], []⟩ := by
  have hscan := (scan_written ⟨0, [], some pair⟩ 0 (by simpa [WrittenTag.text, gappedText])).1
  simpa [WrittenTag.text, WrittenTag.placed, WrittenTag.placeGapped, gappedText] using hscan

/-- **Round trip.** A text written between quotes is read back as it was: by unescaping, also where
the body is taken as it is, by unquoting the literal, and by scanning it as the value of a plain
key, unless it begins with a control character that stands for itself. -/
theorem quoted_round_trip (text : List Char) :
    unescape (quoted text) = .ok text ∧
      (∀ unquoted, borrow? (quoted text) = some unquoted → unquoted.content = text) ∧
      (unquote ('"' :: (quoted text ++ ['"']))).map Unquoted.content = .ok text ∧
      ∀ key : List Char, key ≠ [] → (∀ c ∈ key, isKeyChar c = true) →
        (∀ c ∈ text.head?, Text.isControl c = true → c = '\n') →
        Text.byteLength (key ++ ':' :: '"' :: (quoted text ++ ['"'])) ≤ Offset.limit →
        ∃ entry, scan (key ++ ':' :: '"' :: (quoted text ++ ['"'])) 0 = ⟨[entry], []⟩ ∧
          entry.key = String.ofList key ∧ entry.unescapedValue? = some (String.ofList text) := by
  refine ⟨unescape_quoted text, ?_, unquote_quoted text, ?_⟩
  · intro unquoted hborrow
    exact content_of_borrow?_quoted hborrow
  · intro key hkey hplain hhead hfits
    refine ⟨_, scan_pair (quotedPair key text hkey hplain hhead) hfits, rfl, ?_⟩
    simp [Entry.unescapedValue?, WrittenPair.entry, quotedPair, unescape_quoted]

/-- A newline first, then a backslash before a quote, and a backslash at the end; and a text that
is taken as it is. -/
theorem quoted_round_trip_backslashes :
    quoted "\n\\\"x\\".toList = "\\n\\\\\\\"x\\\\".toList ∧
      Text.byteLength "k:\"\\n\\\\\\\"x\\\\\"".toList ≤ Offset.limit ∧
      (∃ entry, scan "k:\"\\n\\\\\\\"x\\\\\"".toList 0 = ⟨[entry], []⟩ ∧
        entry.key = "k" ∧ entry.unescapedValue? = some "\n\\\"x\\") ∧
      ∃ unquoted, borrow? "a,b".toList = some unquoted ∧ unquoted.content = "a,b".toList := by
  refine ⟨by decide, by decide, ?_, ⟨"a,b".toList, .identity⟩, by decide, ?_⟩
  · have hplain : ∀ c ∈ "k".toList, isKeyChar c = true := List.all_eq_true.1 (by decide)
    have hhead : ∀ c ∈ "\n\\\"x\\".toList.head?, Text.isControl c = true → c = '\n' := by
      rintro c hc -
      exact (Option.some.inj hc).symm
    exact (quoted_round_trip "\n\\\"x\\".toList).2.2.2 "k".toList (by decide) hplain hhead
      (by decide)
  · exact (quoted_round_trip "a,b".toList).2.1 _ (by decide)

end TagLint
