import TagLint.Proofs.Literal.Unescaping
import TagLint.Proofs.Tag.Escapes
import TagLint.Proofs.Tag.Spans

/-!
# Quoted values and their escapes

Two readers look at the backslashes of a quoted value. The scanner counts how many stand before a
quote and lets the quote close the value if the number is even. Unescaping reads whole escape
sequences from the left, some of them several characters long. They agree because every sequence
of tokens ends in a run of backslashes of even length (`backslashesAtEnd_sources`): where
unescaping stops, what the scanner counts from there on is a run of its own.

So unescaping never meets a quote in a value that the scanner found, nor the end of a closed value
just after a backslash (`quoted_values_read`).
-/

namespace TagLint

/-! ## What the scanner leaves in a value -/

/-- A quoted value under way has its quotes escaped, and the counter follows it. -/
def State.KeepsQuotes (before : List Char) : State → Prop
  | .value _ start true escapes => ∃ front value, before = front ++ value ∧
      start = Text.byteLength front ∧ QuotesEscaped value ∧ Tracks escapes value
  | _ => True

/-- The text of a quoted value has its quotes escaped, and no backslash escapes the quote that
closes it. -/
structure ValueEscaped (value : List Char) (unterminated : Bool) : Prop where
  quotes : QuotesEscaped value
  even : unterminated = false → backslashesAtEnd value % 2 = 0

theorem valueEscaped_nil : ValueEscaped [] false := ⟨quotesEscaped_nil, fun _ => rfl⟩

/-- A quoted entry, read as a span of the content, has an escaped value. -/
def RawEntry.Escaped (content : List Char) (raw : RawEntry) : Prop :=
  raw.quoted = true → ValueEscaped (raw.value.cut content).toList raw.unterminated

theorem RawEntry.escaped_of_not_quoted {content : List Char} {raw : RawEntry}
    (h : raw.quoted = false) : raw.Escaped content :=
  fun hquoted => absurd (hquoted.symm.trans h) (by decide)

theorem RawEntry.escaped_of_point {content : List Char} {raw : RawEntry} {offset : Offset}
    (hvalue : raw.value = .point offset) (hend : raw.unterminated = false) :
    raw.Escaped content := by
  intro _
  rw [hvalue, Span.cut_point, hend]
  exact valueEscaped_nil

/-- The value read so far is what an entry that ends here has for its value. -/
theorem cut_value (front value rest : List Char) :
    (Span.cut ⟨Text.byteLength front, Text.byteLength (front ++ value)⟩
      (front ++ value ++ rest)).toList = value := by
  rw [Span.cut_of_spells ⟨front, rest, List.append_assoc .., by rw [Text.byteLength_append]⟩,
    String.toList_ofList]

namespace State.KeepsQuotes

/-- **Step.** -/
theorem step {before : List Char} {state : State} (h : state.KeepsQuotes before) (c : Char) :
    (state.step (Text.byteLength before) c).next.KeepsQuotes (before ++ [c]) ∧
      ∀ raw ∈ (state.step (Text.byteLength before) c).entries, ∀ rest,
        raw.Escaped (before ++ rest) := by
  have hmove := State.step_moves (Text.byteLength before) c state
  generalize state.step (Text.byteLength before) c = result at hmove
  cases hmove with
  | @control state hc hstate =>
    refine ⟨?_, by simp⟩
    cases state with
    | value => simp [State.inValue] at hstate
    | _ => trivial
  | blankValue | bareEnds =>
    refine ⟨trivial, ?_⟩
    intro raw hraw rest
    obtain rfl := List.mem_singleton.1 hraw
    exact RawEntry.escaped_of_not_quoted rfl
  | quotesMeet =>
    refine ⟨trivial, ?_⟩
    intro raw hraw rest
    obtain rfl := List.mem_singleton.1 hraw
    exact RawEntry.escaped_of_point rfl rfl
  | quotedStart hc hquote =>
    refine ⟨⟨before, [c], rfl, rfl, ?_, tracks_nextEscapes tracks_nil c⟩, by simp⟩
    exact quotesEscaped_concat.2 ⟨quotesEscaped_nil, fun h => absurd h hquote⟩
  | quoteCloses hc heven =>
    -- The counter that let the quote close the value has the parity of the run before it.
    obtain ⟨front, value, rfl, rfl, hquotes, htracks⟩ := h
    refine ⟨trivial, ?_⟩
    intro raw hraw rest _
    obtain rfl := List.mem_singleton.1 hraw
    rw [Pending.close, cut_value]
    exact ⟨hquotes, fun _ => htracks.even_iff.1 heven⟩
  | @valueMore pair start quoted escapes hquote =>
    refine ⟨?_, by simp⟩
    cases quoted with
    | false => trivial
    | true =>
      obtain ⟨front, value, rfl, rfl, hquotes, htracks⟩ := h
      have hodd : c = '"' → backslashesAtEnd value % 2 = 1 := by
        intro hc
        have hnotEven := mt htracks.even_iff.2 (hquote rfl hc)
        omega
      exact ⟨front, value ++ [c], List.append_assoc .., rfl,
        quotesEscaped_concat.2 ⟨hquotes, hodd⟩, tracks_nextEscapes htracks c⟩
  | _ => exact ⟨trivial, by simp⟩

theorem finish {content : List Char} {state : State} (h : state.KeepsQuotes content) :
    ∀ raw ∈ state.finish? (Text.byteLength content), raw.Escaped content := by
  intro raw hraw
  cases state with
  | between => simp [State.finish?] at hraw
  | closed => simp [State.finish?] at hraw
  | key start =>
    obtain rfl := Option.some.inj hraw
    exact RawEntry.escaped_of_not_quoted rfl
  | separated pair =>
    obtain rfl := Option.some.inj hraw
    exact RawEntry.escaped_of_not_quoted rfl
  | opened pair =>
    obtain rfl := Option.some.inj hraw
    exact RawEntry.escaped_of_point rfl rfl
  | value pair start quoted escapes =>
    obtain rfl := Option.some.inj hraw
    cases quoted with
    | false => exact RawEntry.escaped_of_not_quoted rfl
    | true =>
      obtain ⟨front, value, rfl, rfl, hquotes, -⟩ := h
      intro _
      have hcut := cut_value front value []
      rw [List.append_nil] at hcut
      rw [Pending.close, hcut]
      exact ⟨hquotes, fun hend => by cases hend⟩

end State.KeepsQuotes

theorem escaped_of_mem_rawEntries {content : List Char} {raw : RawEntry}
    (h : raw ∈ rawEntries content) : raw.Escaped content := by
  refine @forall_mem_rawEntries (fun before state => state.KeepsQuotes before)
    (fun content raw => raw.Escaped content) trivial ?next ?entry ?finish content raw h
  case next =>
    intro before state c hkeeps
    exact (hkeeps.step c).1
  case entry =>
    intro before state c rest hkeeps raw hraw
    exact (hkeeps.step c).2 raw hraw (c :: rest)
  case finish =>
    intro before state hkeeps
    exact hkeeps.finish

theorem valueEscaped_of_mem_entries {content : List Char} {base : Offset} {entry : Entry}
    (h : entry ∈ (scan content base).entries) (hquoted : entry.quoted = true) :
    ValueEscaped entry.value.toList entry.unterminated := by
  obtain ⟨raw, hraw, rfl⟩ := List.mem_map.1 h
  exact escaped_of_mem_rawEntries hraw hquoted

/-! ## What tokens end in -/

namespace Literal

/-- A numeral ends in a digit, and no digit is a backslash. -/
theorem ends_of_isNumeral {base : Nat} {digits : List Char} {value : Nat} (hbase : base ≤ 16)
    (hpos : 0 < digits.length) (h : Text.IsNumeral base digits value) (mark : List Char) :
    ∃ front c, mark ++ digits = front ++ [c] ∧ c ≠ '\\' := by
  rcases List.eq_nil_or_concat digits with rfl | ⟨front, c, rfl⟩
  · cases hpos
  · refine ⟨mark ++ front, c, by simp, ?_⟩
    obtain ⟨digit, hlt, hdigit⟩ := h.isDigitOf_of_mem c (by simp)
    have hdigits : ∀ digit < 16, digit.digitChar ≠ '\\' ∧ digit.digitChar.toUpper ≠ '\\' := by
      decide
    obtain ⟨hlower, hupper⟩ := hdigits digit (by omega)
    rcases hdigit with rfl | rfl
    · exact hlower
    · exact hupper

/-- Only the escaped backslash ends in a backslash. -/
theorem IsToken.ends {token : Token} (h : IsToken token) :
    token.source = ['\\', '\\'] ∨ ∃ front c, token.source = front ++ [c] ∧ c ≠ '\\' := by
  cases h with
  | @plain c _ hbackslash _ => exact .inr ⟨[], c, rfl, hbackslash⟩
  | escape h =>
    cases h with
    | @named c byte _ =>
      by_cases hc : c = '\\'
      · exact .inl (by rw [hc])
      · exact .inr ⟨['\\'], c, rfl, hc⟩
    | hexByte hlength hvalue =>
      exact .inr (ends_of_isNumeral (by decide) (by omega) hvalue ['\\', 'x'])
    | shortScalar hlength hvalue =>
      exact .inr (ends_of_isNumeral (by decide) (by omega) hvalue ['\\', 'u'])
    | longScalar hlength hvalue =>
      exact .inr (ends_of_isNumeral (by decide) (by omega) hvalue ['\\', 'U'])
    | octalByte hlength hvalue =>
      exact .inr (ends_of_isNumeral (by decide) (by omega) hvalue ['\\'])

/-- The backslashes at the end of a sequence of tokens come in pairs. -/
theorem backslashesAtEnd_sources {tokens : List Token} (h : ∀ token ∈ tokens, IsToken token) :
    backslashesAtEnd (sources tokens) % 2 = 0 := by
  -- The run at the end is that of the last token, or that of the tokens before it and two more.
  induction tokens using List.reverseRecOn with
  | nil => rfl
  | append_singleton tokens token ih =>
    obtain ⟨htokens, htoken⟩ := List.forall_mem_append.1 h
    have hsource : sources (tokens ++ [token]) = sources tokens ++ token.source := by simp
    rw [hsource]
    rcases (htoken token (List.mem_singleton_self token)).ends with hpair | ⟨front, c, hlast, hc⟩
    · have hmore : backslashesAtEnd (sources tokens ++ token.source) =
          backslashesAtEnd (sources tokens) + 1 + 1 := by
        rw [hpair, List.append_cons, backslashesAtEnd_concat, backslashesAtEnd_concat]
        rfl
      have hfew := ih htokens
      omega
    · rw [hlast, ← List.append_assoc, backslashesAtEnd_concat, if_neg hc]

/-- What stands in a quoted value where no token begins: a newline, a backslash with no escape
sequence, or a backslash at which the content ended. -/
inductive Obstacle (unterminated : Bool) : List Char → Prop
  | newline {rest : List Char} : Obstacle unterminated ('\n' :: rest)
  | badEscape {rest : List Char} : BadEscape rest → Obstacle unterminated ('\\' :: rest)
  | cutOff : unterminated = true → Obstacle unterminated ['\\']

theorem Obstacle.not_beginsToken {unterminated : Bool} {rest : List Char}
    (h : Obstacle unterminated rest) : ¬ BeginsToken rest := by
  cases h with
  | newline => exact not_beginsToken_newline _
  | badEscape hbad => exact not_beginsToken_backslash_iff.2 (.inr hbad)
  | cutOff => exact not_beginsToken_backslash_iff.2 (.inl rfl)

theorem Obstacle.exists_fault {unterminated : Bool} {rest : List Char}
    (h : Obstacle unterminated rest) (offset : Offset) :
    ∃ c cs error, rest = c :: cs ∧ faultAt? offset c = some error := by
  cases h <;> exact ⟨_, _, _, rfl, rfl⟩

section Value

variable {value : List Char} {unterminated : Bool}

/-- After tokens an escaped value goes on with no quote. -/
theorem ne_quote_of_tokens (h : ValueEscaped value unterminated) {tokens : List Token}
    (htokens : ∀ token ∈ tokens, IsToken token) {c : Char} {rest : List Char}
    (hvalue : sources tokens ++ c :: rest = value) : c ≠ '"' := by
  rintro rfl
  have hodd := h.quotes _ _ hvalue.symm
  have heven := backslashesAtEnd_sources htokens
  omega

/-- After tokens a closed value does not end in one more backslash. -/
theorem unterminated_of_tokens (h : ValueEscaped value unterminated) {tokens : List Token}
    (htokens : ∀ token ∈ tokens, IsToken token) (hvalue : sources tokens ++ ['\\'] = value) :
    unterminated = true := by
  by_contra hend
  have heven := h.even (Bool.eq_false_iff.2 hend)
  rw [← hvalue, backslashesAtEnd_concat, if_pos rfl] at heven
  have htokensEven := backslashesAtEnd_sources htokens
  omega

/-- An escaped value that no tokens spell is stopped by an obstacle, which the error tells of. -/
theorem exists_obstacle_of_error (h : ValueEscaped value unterminated) {error : UnquoteError}
    (herror : unescape value = .error error) : ∃ tokens c rest,
      (∀ token ∈ tokens, IsToken token) ∧ sources tokens ++ c :: rest = value ∧
        Obstacle unterminated (c :: rest) ∧
        faultAt? (Text.byteLength (sources tokens)) c = some error := by
  obtain ⟨tokens, c, rest, hlongest, hvalue, hfault⟩ := unescape_eq_error_iff.1 herror
  have htokens := hlongest.isToken
  refine ⟨tokens, c, rest, htokens, hvalue, ?_, hfault⟩
  unfold faultAt? at hfault
  split at hfault
  · exact absurd rfl (ne_quote_of_tokens h htokens hvalue)
  · exact .newline
  · subst hvalue
    obtain ⟨-, rest', hsame, hstop⟩ := isLongest_iff.1 hlongest
    obtain rfl := List.append_cancel_left hsame
    rcases not_beginsToken_backslash_iff.1 hstop with rfl | hbad
    · exact .cutOff (unterminated_of_tokens h htokens rfl)
    · exact .badEscape hbad
  · cases hfault

/-- An escaped value holds no stray quote. -/
theorem unescape_ne_strayDelimiter (h : ValueEscaped value unterminated) (offset : Offset) :
    unescape value ≠ .error (.strayDelimiter offset) := by
  intro herror
  obtain ⟨tokens, c, rest, -, -, hobstacle, hfault⟩ := exists_obstacle_of_error h herror
  cases hobstacle <;> cases hfault

/-- A closed value goes on after a backslash that begins no escape sequence. -/
theorem lt_byteLength_of_invalidEscape (h : ValueEscaped value false) {offset : Offset}
    (herror : unescape value = .error (.invalidEscape offset)) :
    offset + 1 < Text.byteLength value := by
  obtain ⟨tokens, c, rest, -, rfl, hobstacle, hfault⟩ := exists_obstacle_of_error h herror
  cases hobstacle with
  | newline => cases hfault
  | cutOff hopen => cases hopen
  | badEscape hbad =>
    obtain rfl := UnquoteError.invalidEscape.inj (Option.some.inj hfault)
    have hpos := Nat.pos_of_ne_zero (mt Text.eq_nil_of_byteLength_eq_zero hbad.ne_nil)
    have hbackslash : Char.utf8Size '\\' = 1 := by decide
    rw [Text.byteLength_append, Text.byteLength_cons, hbackslash]
    lia

end Value

/-- An obstacle after some tokens keeps a body from being read. -/
theorem unescape_of_obstacle {body rest : List Char} {tokens : List Token} {unterminated : Bool}
    (htokens : ∀ token ∈ tokens, IsToken token) (hbody : sources tokens ++ rest = body)
    (h : Obstacle unterminated rest) : ∃ error, unescape body = .error error := by
  obtain ⟨c, cs, error, rfl, hfault⟩ := h.exists_fault (Text.byteLength (sources tokens))
  have hlongest := isLongest_iff.2 ⟨htokens, c :: cs, hbody, h.not_beginsToken⟩
  exact ⟨error, unescape_eq_error_iff.2 ⟨tokens, c, cs, hlongest, hbody, hfault⟩⟩

end Literal

/-! ## Quoted values -/

open Literal

theorem Entry.unescapedValue?_eq_none_iff {entry : Entry} (hquoted : entry.quoted = true) :
    entry.unescapedValue? = none ↔ ∃ error, unescape entry.value.toList = .error error := by
  rw [unescapedValue?, if_pos hquoted]
  cases unescape entry.value.toList <;> simp

/-- **Quoted values.** Unescaping never meets a quote in a value that was quoted. If the quote was
closed, a backslash that unescaping stops at is not the last byte. So all that keeps such a value
from being read, after tokens, is a newline or a backslash with no escape sequence, or the end of
the content just after a backslash if the quote was not closed. -/
theorem quoted_values_read (content : List Char) (base : Offset) :
    ∀ entry ∈ (scan content base).entries, entry.quoted = true →
      (∀ offset, unescape entry.value.toList ≠ .error (.strayDelimiter offset)) ∧
        (entry.unterminated = false → ∀ offset,
          unescape entry.value.toList = .error (.invalidEscape offset) →
            offset + 1 < Text.byteLength entry.value.toList) ∧
        (entry.unescapedValue? = none ↔ ∃ tokens rest, (∀ token ∈ tokens, IsToken token) ∧
          sources tokens ++ rest = entry.value.toList ∧ Obstacle entry.unterminated rest) := by
  intro entry hentry hquoted
  have hescaped := valueEscaped_of_mem_entries hentry hquoted
  refine ⟨?_, ?_, ?_⟩
  · intro offset
    exact unescape_ne_strayDelimiter hescaped offset
  · intro hend offset herror
    exact lt_byteLength_of_invalidEscape (hend ▸ hescaped) herror
  · rw [Entry.unescapedValue?_eq_none_iff hquoted]
    constructor
    · rintro ⟨error, herror⟩
      obtain ⟨tokens, c, rest, htokens, hvalue, hobstacle, -⟩ :=
        exists_obstacle_of_error hescaped herror
      exact ⟨tokens, c :: rest, htokens, hvalue, hobstacle⟩
    · rintro ⟨tokens, rest, htokens, hvalue, hobstacle⟩
      exact unescape_of_obstacle htokens hvalue hobstacle

/-- Two closed values, the first of which holds an escaped quote and no escape sequence after it,
and a value cut off after a backslash. -/
theorem quoted_values_read_backslashes :
    (scan "a:\"\\\"\\q\" b:\"\\\\\" c:\"\\".toList 0).entries =
        [⟨"a", "\\\"\\q", 0, 3, 7, true, false, true⟩,
          ⟨"b", "\\\\", 9, 12, 14, true, false, true⟩,
          ⟨"c", "\\", 16, 19, 20, true, true, true⟩] ∧
      (∀ offset, unescape "\\\"\\q".toList ≠ .error (.strayDelimiter offset)) ∧
      2 + 1 < Text.byteLength "\\\"\\q".toList ∧
      (∃ tokens rest, (∀ token ∈ tokens, IsToken token) ∧
        sources tokens ++ rest = "\\\"\\q".toList ∧ Obstacle false rest) ∧
      (¬ ∃ tokens rest, (∀ token ∈ tokens, IsToken token) ∧
        sources tokens ++ rest = "\\\\".toList ∧ Obstacle false rest) ∧
      ∃ tokens rest, (∀ token ∈ tokens, IsToken token) ∧
        sources tokens ++ rest = "\\".toList ∧ Obstacle true rest := by
  have hentries : (scan "a:\"\\\"\\q\" b:\"\\\\\" c:\"\\".toList 0).entries =
      [⟨"a", "\\\"\\q", 0, 3, 7, true, false, true⟩,
        ⟨"b", "\\\\", 9, 12, 14, true, false, true⟩,
        ⟨"c", "\\", 16, 19, 20, true, true, true⟩] := by
    decide +kernel
  have hread := quoted_values_read "a:\"\\\"\\q\" b:\"\\\\\" c:\"\\".toList 0
  rw [hentries] at hread
  obtain ⟨hquote, hlast, hobstacle⟩ := hread _ (.head _) rfl
  obtain ⟨-, -, hpaired⟩ := hread _ (.tail _ (.head _)) rfl
  obtain ⟨-, -, hcut⟩ := hread _ (.tail _ (.tail _ (.head _))) rfl
  exact ⟨hentries, hquote, hlast rfl 2 (by decide +kernel), hobstacle.1 (by decide +kernel),
    fun h => absurd (hpaired.2 h) (by decide +kernel), hcut.1 (by decide +kernel)⟩

end TagLint
