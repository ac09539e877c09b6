import TagLint.Lint.Validate
import TagLint.Proofs.Tag.Accounting
import TagLint.Proofs.Tag.QuotedValues

/-!
# The shapes of scanned entries

The flags of an entry say something about texts that were read long before the entry was finished.
An entry without a colon has a key, and its value is quoted or missing; an unquoted value holds no
space; only the last entry can be cut off. `State.Shaped` says what each state knows of the texts it
has the spans of, every step keeps it, and so every entry comes out in shape (`scan_shaped`).

What a key may hold behind its first character is not part of that invariant: a character that
leaves the scanner in a key is one that keys may hold, or it was reported (`of_inKey`).
-/

namespace TagLint

/-- What is known of the text of a key: how it begins, and that there is one unless a colon has
ended it. -/
structure KeyText (separated : Bool) (key : List Char) : Prop where
  head : ∀ c rest, key = c :: rest → isKeyChar c = true
  named : separated = false → key ≠ []

/-- What is known of the text of a value that is there. -/
structure ValueText (quoted : Bool) (value : List Char) : Prop where
  ne_nil : value ≠ []
  head : ∀ c rest, value = c :: rest → Text.isControl c = false ∧ c ≠ '"'
  bare : quoted = false → ' ' ∉ value

/-- What is known of the first character is kept as the text grows. -/
theorem head_concat {p : Char → Prop} {text : List Char} (hne : text ≠ [])
    (h : ∀ c rest, text = c :: rest → p c) (last : Char) :
    ∀ c rest, text ++ [last] = c :: rest → p c := by
  intro c rest hcons
  obtain ⟨first, more, rfl⟩ := List.exists_cons_of_ne_nil hne
  obtain ⟨rfl, -⟩ := List.cons.inj hcons
  exact h first more rfl

namespace KeyText

theorem nil : KeyText true [] := ⟨by simp, by simp⟩

theorem singleton {c : Char} (hc : isKeyChar c = true) : KeyText false [c] := by
  refine ⟨?_, by simp⟩
  intro d rest h
  obtain ⟨rfl, -⟩ := List.cons.inj h
  exact hc

/-- A key that has begun may go on with any character. -/
theorem concat {key : List Char} (h : KeyText false key) (c : Char) :
    KeyText false (key ++ [c]) :=
  ⟨head_concat (h.named rfl) h.head c, by simp⟩

theorem colon {key : List Char} (h : KeyText false key) : KeyText true key :=
  ⟨h.head, by simp⟩

end KeyText

namespace ValueText

theorem singleton {quoted : Bool} {c : Char} (hc : Text.isControl c = false) (hquote : c ≠ '"')
    (hspace : quoted = false → c ≠ ' ') : ValueText quoted [c] := by
  refine ⟨by simp, ?_, ?_⟩
  · intro d rest h
    obtain ⟨rfl, -⟩ := List.cons.inj h
    exact ⟨hc, hquote⟩
  · intro hbare hmem
    exact hspace hbare (List.mem_singleton.1 hmem).symm

theorem concat {quoted : Bool} {value : List Char} {c : Char} (h : ValueText quoted value)
    (hspace : quoted = false → c ≠ ' ') : ValueText quoted (value ++ [c]) := by
  refine ⟨by simp, head_concat h.ne_nil h.head c, ?_⟩
  intro hbare hmem
  rcases List.mem_append.1 hmem with hmem | hmem
  · exact h.bare hbare hmem
  · exact hspace hbare (List.mem_singleton.1 hmem).symm

end ValueText

/-! ## The shape that each state keeps -/

/-- The key of a pair under way is in shape. -/
def Pending.Shaped (before : List Char) (pair : Pending) : Prop :=
  ∃ key, pair.key.Spells before key ∧ KeyText pair.separated key

theorem Pending.Shaped.append {before : List Char} {pair : Pending} (h : pair.Shaped before)
    (rest : List Char) : pair.Shaped (before ++ rest) := by
  obtain ⟨key, hspells, hkey⟩ := h
  exact ⟨key, hspells.append rest, hkey⟩

theorem Pending.Shaped.keyText {content : List Char} {pair : Pending} (h : pair.Shaped content) :
    KeyText pair.separated (pair.key.cut content).toList := by
  obtain ⟨key, hspells, hkey⟩ := h
  rwa [Span.cut_of_spells hspells, String.toList_ofList]

/-- An entry whose flags agree with its texts. -/
structure RawEntry.Shaped (content : List Char) (raw : RawEntry) : Prop where
  key : KeyText raw.separated (raw.key.cut content).toList
  value : raw.value.cut content ≠ "" → ValueText raw.quoted (raw.value.cut content).toList
  unterminated : raw.unterminated = true →
    raw.quoted = true ∧ raw.value.cut content ≠ "" ∧ raw.value.stop = Text.byteLength content
  unseparated : raw.separated = false →
    raw.quoted = true ∨ raw.value = .point (Text.byteLength content)

namespace State

/-- What a state knows of the texts it has the spans of. -/
def Shaped (before : List Char) : State → Prop
  | .between => True
  | .closed => True
  | .key start => ∃ key, Span.Spells ⟨start, Text.byteLength before⟩ before key ∧ KeyText false key
  | .separated pair => pair.Shaped before ∧ pair.separated = true
  | .opened pair => pair.Shaped before
  | .value pair start quoted _ => pair.Shaped before ∧ (quoted = false → pair.separated = true) ∧
      ∃ value, Span.Spells ⟨start, Text.byteLength before⟩ before value ∧ ValueText quoted value

namespace Shaped

/-- A text of the right kind is what its place holds. -/
theorem valueText_cut {content text : List Char} {value : Span} {quoted : Bool}
    (hspells : value.Spells content text) (htext : ValueText quoted text) :
    ValueText quoted (value.cut content).toList := by
  rwa [Span.cut_of_spells hspells, String.toList_ofList]

/-- What has a colon or a quote, and no colon, has a quote. -/
theorem quoted_of_mark {pair : Pending} {quoted : Bool}
    (hmark : quoted = false → pair.separated = true) (hseparated : pair.separated = false) :
    quoted = true := by
  by_contra hbare
  exact absurd (hmark (Bool.eq_false_iff.2 hbare)) (Bool.eq_false_iff.1 hseparated)

/-- An entry without a value that a step finishes needs a colon or a quote. -/
theorem close_point {before : List Char} {pair : Pending} {quoted : Bool}
    (hpair : pair.Shaped before) (hmark : quoted = false → pair.separated = true)
    (offset : Offset) (rest : List Char) :
    (pair.close (.point offset) quoted false).Shaped (before ++ rest) := by
  refine ⟨(hpair.append rest).keyText, by simp [Pending.close], by simp [Pending.close], ?_⟩
  exact fun hseparated => .inl (quoted_of_mark hmark hseparated)

/-- A value under way becomes that of an entry in shape, wherever the value ends. It is cut off
only by the end of the content. -/
theorem close_value {before : List Char} {pair : Pending} {start : Offset} {quoted : Bool}
    {escapes : UInt32} (h : (State.value pair start quoted escapes).Shaped before)
    {unterminated : Bool} (rest : List Char)
    (hend : unterminated = true → quoted = true ∧ rest = []) :
    (pair.close ⟨start, Text.byteLength before⟩ quoted unterminated).Shaped (before ++ rest) := by
  obtain ⟨hpair, hmark, value, hspells, hvalue⟩ := h
  have htext := valueText_cut (hspells.append rest) hvalue
  refine ⟨(hpair.append rest).keyText, fun _ => htext, ?_, ?_⟩
  · intro hunterminated
    obtain ⟨hquoted, rfl⟩ := hend hunterminated
    refine ⟨hquoted, ?_, by rw [List.append_nil]; rfl⟩
    simpa [Pending.close] using htext.ne_nil
  · exact fun hseparated => .inl (quoted_of_mark hmark hseparated)

/-- **Step.** -/
theorem step {before : List Char} {state : State} (h : state.Shaped before) (c : Char) :
    (state.step (Text.byteLength before) c).next.Shaped (before ++ [c]) ∧
      ∀ raw ∈ (state.step (Text.byteLength before) c).entries, ∀ rest,
        raw.Shaped (before ++ rest) := by
  have hmove := State.step_moves (Text.byteLength before) c state
  generalize state.step (Text.byteLength before) c = result at hmove
  cases hmove with
  | @control state hc hstate =>
    refine ⟨?_, by simp⟩
    cases state with
    | between | closed => trivial
    | key start =>
      obtain ⟨key, hspells, hkey⟩ := h
      exact ⟨key ++ [c], hspells.concat c, hkey.concat c⟩
    | separated pair => exact ⟨Pending.Shaped.append h.1 [c], h.2⟩
    | opened pair => exact Pending.Shaped.append h [c]
    | value => simp [State.inValue] at hstate
  | space | strayQuote | swallow => exact ⟨trivial, by simp⟩
  | emptyKey =>
    refine ⟨⟨⟨[], ?_, .nil⟩, rfl⟩, by simp⟩
    exact (Span.Spells.point before).append [c]
  | keyStart hc =>
    refine ⟨⟨[c], ?_, .singleton hc⟩, by simp⟩
    exact Span.Spells.concat c (Span.Spells.point before)
  | keySpace | keyMore =>
    obtain ⟨key, hspells, hkey⟩ := h
    exact ⟨⟨key ++ [c], hspells.concat c, hkey.concat c⟩, by simp⟩
  | keyColon =>
    obtain ⟨key, hspells, hkey⟩ := h
    exact ⟨⟨⟨key, hspells.append [c], hkey.colon⟩, rfl⟩, by simp⟩
  | keyQuote =>
    obtain ⟨key, hspells, hkey⟩ := h
    exact ⟨⟨key, hspells.append [c], hkey⟩, by simp⟩
  | blankValue =>
    obtain ⟨hpair, hseparated⟩ := h
    refine ⟨trivial, ?_⟩
    intro raw hraw rest
    obtain rfl := List.mem_singleton.1 hraw
    exact close_point hpair (fun _ => hseparated) _ rest
  | quoteOpens => exact ⟨Pending.Shaped.append h.1 [c], by simp⟩
  | bareStart hc hspace hquote =>
    obtain ⟨hpair, hseparated⟩ := h
    refine ⟨⟨hpair.append [c], fun _ => hseparated, [c], ?_, ?_⟩, by simp⟩
    · exact Span.Spells.concat c (Span.Spells.point before)
    · exact .singleton hc hquote fun _ => hspace
  | quotesMeet =>
    refine ⟨trivial, ?_⟩
    intro raw hraw rest
    obtain rfl := List.mem_singleton.1 hraw
    exact close_point h (by simp) _ rest
  | quotedStart hc hquote =>
    refine ⟨⟨Pending.Shaped.append h [c], by simp, [c], ?_, ?_⟩, by simp⟩
    · exact Span.Spells.concat c (Span.Spells.point before)
    · exact .singleton hc hquote (by simp)
  | quoteCloses | bareEnds =>
    refine ⟨trivial, ?_⟩
    intro raw hraw rest
    obtain rfl := List.mem_singleton.1 hraw
    exact close_value h rest (by simp)
  | valueMore _ hspace =>
    obtain ⟨hpair, hmark, value, hspells, hvalue⟩ := h
    exact ⟨⟨hpair.append [c], hmark, value ++ [c], hspells.concat c, hvalue.concat hspace⟩,
      by simp⟩

/-- The entry still open when the content ends. -/
theorem finish {content : List Char} {state : State} (h : state.Shaped content) :
    ∀ raw ∈ state.finish? (Text.byteLength content), raw.Shaped content := by
  intro raw hraw
  cases state with
  | between | closed => simp [State.finish?] at hraw
  | key start =>
    obtain rfl := Option.some.inj hraw
    have hpair : Pending.Shaped content ⟨⟨start, Text.byteLength content⟩, false⟩ := h
    exact ⟨hpair.keyText, by simp, by simp, fun _ => .inr rfl⟩
  | separated pair =>
    obtain rfl := Option.some.inj hraw
    exact ⟨h.1.keyText, by simp [Pending.close], by simp [Pending.close], fun _ => .inr rfl⟩
  | opened pair =>
    obtain rfl := Option.some.inj hraw
    exact ⟨Pending.Shaped.keyText h, by simp [Pending.close], by simp [Pending.close],
      fun _ => .inl rfl⟩
  | value pair start quoted escapes =>
    obtain rfl := Option.some.inj hraw
    have hclose := close_value h [] fun hquoted => ⟨hquoted, rfl⟩
    rwa [List.append_nil] at hclose

end Shaped

end State

theorem shaped_of_mem_rawEntries {content : List Char} {raw : RawEntry}
    (h : raw ∈ rawEntries content) : raw.Shaped content := by
  refine @forall_mem_rawEntries (fun before state => state.Shaped before)
    (fun content raw => raw.Shaped content) trivial ?next ?entry ?finish content raw h
  case next =>
    intro before state c hshaped
    exact (hshaped.step c).1
  case entry =>
    intro before state c rest hshaped raw hraw
    exact (hshaped.step c).2 raw hraw (c :: rest)
  case finish =>
    intro before state hshaped
    exact hshaped.finish

/-! ## The characters of a key -/

/-- A character that leaves the scanner in a key is one that keys may hold, or it was reported. -/
theorem of_inKey {before : List Char} {c : Char} (h : (stepAt before c).next.inKey = true) :
    isKeyChar c = true ∨
      (c = ' ' ∨ Text.isControl c = true) ∧ (stepAt before c).invalid = true := by
  have hmove := moves_stepAt before c
  generalize stepAt before c = result at h hmove ⊢
  generalize stateAfter before = state at hmove
  cases hmove with
  | control hc => exact .inr ⟨.inr hc, rfl⟩
  | keyStart hc | keyMore hc => exact .inl hc
  | keySpace hc => exact .inr ⟨.inl hc, rfl⟩
  | _ => simp [State.inKey] at h

section Key

variable {content : List Char} {base : Offset} {raw : RawEntry} {before rest : List Char} {c : Char}

/-- A character of a key is one that keys may hold, or it is reported where it stands. -/
theorem key_char_cases (hfits : base + Text.byteLength content ≤ Offset.limit)
    (hraw : raw ∈ rawEntries content) (hkey : (raw.key.cut content).toList = before ++ c :: rest) :
    isKeyChar c = true ∨ (c = ' ' ∨ Text.isControl c = true) ∧
      ⟨.invalidKeyChar, base + raw.key.start + Text.byteLength before⟩ ∈
        (scan content base).problems := by
  have hspells := (fits_of_mem_rawEntries hraw).key.spells_cut
  rw [hkey] at hspells
  obtain ⟨front, after, rfl, hspan⟩ := hspells
  have hsplit : front ++ (before ++ c :: rest ++ after) =
      (front ++ before) ++ c :: (rest ++ after) := by simp
  rw [hsplit] at hfits hraw ⊢
  have hcovers : raw.key.Covers (Text.byteLength (front ++ before)) := by
    have hpos := c.utf8Size_pos
    simp only [hspan, Span.Covers, Text.byteLength_append, Text.byteLength_cons]
    lia
  have hinKey : (stepAt (front ++ before) c).next.inKey = true := by
    by_contra hnot
    have hcount := countP_key_covers (front ++ before) c (rest ++ after)
    rw [if_neg hnot, List.countP_eq_zero] at hcount
    exact hcount raw hraw (decide_eq_true hcovers)
  refine (of_inKey hinKey).imp_right ?_
  rintro ⟨hc, hinvalid⟩
  have hreported := mem_problems_of_invalid hfits hinvalid
  rw [Text.byteLength_append, ← Nat.add_assoc] at hreported
  exact ⟨hc, by rwa [hspan]⟩

theorem not_mark_of_mem_key (hfits : base + Text.byteLength content ≤ Offset.limit)
    (hraw : raw ∈ rawEntries content) (hc : c ∈ (raw.key.cut content).toList) :
    c ≠ ':' ∧ c ≠ '"' := by
  obtain ⟨before, rest, hsplit⟩ := List.append_of_mem hc
  rcases key_char_cases hfits hraw hsplit with hplain | ⟨rfl | hcontrol, -⟩
  · exact (isKeyChar_iff.1 hplain).2.2
  · decide
  · constructor <;> rintro rfl <;> cases hcontrol

theorem reported_of_key_char (hfits : base + Text.byteLength content ≤ Offset.limit)
    (hraw : raw ∈ rawEntries content) (hkey : (raw.key.cut content).toList = before ++ c :: rest)
    (hc : c = ' ' ∨ Text.isControl c = true) :
    ⟨.invalidKeyChar, base + raw.key.start + Text.byteLength before⟩ ∈
      (scan content base).problems := by
  rcases key_char_cases hfits hraw hkey with hplain | ⟨-, hreported⟩
  · obtain ⟨hcontrol, hspace, -⟩ := isKeyChar_iff.1 hplain
    rcases hc with hc | hc
    · exact absurd hc hspace
    · exact absurd (hcontrol.symm.trans hc) Bool.false_ne_true
  · exact hreported

end Key

/-! ## Entries in shape -/

/-- The entry is found last, and not before that. -/
def ScanResult.IsLast (found : ScanResult) (entry : Entry) : Prop :=
  ∀ before after, found.entries = before ++ entry :: after → after = []

/-- An entry whose flags and texts agree with each other and with what else was found. -/
structure Entry.Shaped (content : List Char) (base : Offset) (found : ScanResult) (entry : Entry) :
    Prop where
  unterminated : entry.unterminated = true →
    entry.quoted = true ∧ entry.value ≠ "" ∧ entry.value.toList <:+ content ∧
      entry.valueEnd = base + Text.byteLength content ∧ found.IsLast entry
  unseparated : entry.separated = false →
    entry.key ≠ "" ∧ (entry.quoted = true ∨ entry.value = "" ∧ found.IsLast entry)
  unnamed : entry.key = "" → entry.separated = true
  key_head : ∀ c rest, entry.key.toList = c :: rest → isKeyChar c = true
  key_marks : ∀ c ∈ entry.key.toList, c ≠ ':' ∧ c ≠ '"'
  key_reported : ∀ before c rest, entry.key.toList = before ++ c :: rest →
    c = ' ' ∨ Text.isControl c = true →
      ⟨.invalidKeyChar, entry.keyOffset + Text.byteLength before⟩ ∈ found.problems
  value_head : ∀ c rest, entry.value.toList = c :: rest → Text.isControl c = false ∧ c ≠ '"'
  bare : entry.quoted = false → ' ' ∉ entry.value.toList
  escaped : entry.quoted = true → ValueEscaped entry.value.toList entry.unterminated

section Scan

variable {content : List Char} {base : Offset}

/-- Nothing follows an entry that reaches to the end of the content. -/
theorem isLast_of_valueEnd (hfits : base + Text.byteLength content ≤ Offset.limit) {entry : Entry}
    (hstop : entry.valueEnd = base + Text.byteLength content) :
    (scan content base).IsLast entry := by
  intro before after hsplit
  cases after with
  | nil => rfl
  | cons next after =>
    have hnext : next ∈ (scan content base).entries := by simp [hsplit]
    have horder : (scan content base).entries.Pairwise
        fun first second => first.valueEnd < second.keyOffset := by
      rw [scan_of_fits hfits, List.pairwise_map]
      exact (rawEntries_inOrder content).imp fun h => Nat.add_lt_add_left h base
    rw [hsplit, List.pairwise_append, List.pairwise_cons] at horder
    have hlt := horder.2.1.1 next List.mem_cons_self
    obtain ⟨raw, hraw, rfl, -, -⟩ := exists_raw_of_mem hfits hnext
    have hkey := (fits_of_mem_rawEntries hraw).key
    have hinside : base + raw.key.start ≤ base + Text.byteLength content :=
      Nat.add_le_add_left (Nat.le_trans hkey.start_le hkey.stop_le) base
    rw [hstop] at hlt
    exact absurd hlt (Nat.not_lt.2 hinside)

/-- The value of an entry that is cut off is the end of the content. -/
theorem isSuffix_of_unterminated {raw : RawEntry} (hraw : raw ∈ rawEntries content)
    (hopen : raw.unterminated = true) : (raw.value.cut content).toList <:+ content := by
  obtain ⟨-, hne, hstop⟩ := (shaped_of_mem_rawEntries hraw).unterminated hopen
  rcases (fits_of_mem_rawEntries hraw).value with hcuts | hpoint
  · exact hcuts.spells_cut.isSuffix hstop
  · exact absurd (Span.cut_eq_empty hpoint content) hne

theorem shaped_of_mem_entries (hfits : base + Text.byteLength content ≤ Offset.limit)
    {entry : Entry} (h : entry ∈ (scan content base).entries) :
    entry.Shaped content base (scan content base) := by
  have hescaped := valueEscaped_of_mem_entries h
  obtain ⟨raw, hraw, rfl, -, -⟩ := exists_raw_of_mem hfits h
  have hshaped := shaped_of_mem_rawEntries hraw
  have hnamed : raw.separated = false → raw.key.cut content ≠ "" := by
    intro hseparated hempty
    exact hshaped.key.named hseparated (by simp [hempty])
  have hvalue : ∀ c ∈ (raw.value.cut content).toList,
      ValueText raw.quoted (raw.value.cut content).toList := by
    intro c hc
    refine hshaped.value ?_
    intro hempty
    simp [hempty] at hc
  constructor
  case unterminated =>
    intro hopen
    obtain ⟨hquoted, hne, hstop⟩ := hshaped.unterminated hopen
    have hend : base + raw.value.stop = base + Text.byteLength content := congrArg _ hstop
    exact ⟨hquoted, hne, isSuffix_of_unterminated hraw hopen, hend, isLast_of_valueEnd hfits hend⟩
  case unseparated =>
    intro hseparated
    refine ⟨hnamed hseparated, (hshaped.unseparated hseparated).imp_right ?_⟩
    intro hpoint
    refine ⟨?_, isLast_of_valueEnd hfits ?_⟩
    · simp [Entry.ofRaw, hpoint]
    · simp [Entry.ofRaw, hpoint, Span.point]
  case unnamed =>
    intro hempty
    by_contra hseparated
    exact hnamed (Bool.eq_false_iff.2 hseparated) hempty
  case key_head => exact hshaped.key.head
  case key_marks =>
    intro c hc
    exact not_mark_of_mem_key hfits hraw hc
  case key_reported =>
    intro before c rest hkey hc
    exact reported_of_key_char hfits hraw hkey hc
  case value_head =>
    intro c rest hcons
    have hc : c ∈ (raw.value.cut content).toList := List.mem_of_mem_head? (congrArg _ hcons)
    exact (hvalue c hc).head c rest hcons
  case bare =>
    intro hbare hspace
    exact (hvalue _ hspace).bare hbare hspace
  case escaped => exact hescaped

end Scan

/-! ## Which rules can be broken together -/

/-- The rule that a kind of problem stands for is broken by the entry. -/
def Entry.Breaks (allowed : AllowList) (entry : Entry) : ProblemKind → Prop
  | .malformedLiteral => False
  | .invalidKeyChar => False
  | .emptyKey => entry.key = ""
  | .unknownKey key => entry.key = key ∧ key ≠ "" ∧ allowed.contains key = false
  | .emptyValue => entry.value = ""
  | .unquotedValue => entry.value ≠ "" ∧ entry.quoted = false
  | .unterminatedQuote => entry.value ≠ "" ∧ entry.quoted = true ∧ entry.unterminated = true
  | .missingSeparator => entry.value ≠ "" ∧ entry.separated = false

namespace Entry

variable {allowed : AllowList} {entry : Entry} {problem : Problem}

theorem breaks_of_mem_keyProblems (h : problem ∈ entry.keyProblems allowed) :
    entry.Breaks allowed problem.kind := by
  unfold keyProblems at h
  split at h
  · next hempty =>
    obtain rfl := List.mem_singleton.1 h
    have hkey : entry.key = "" := by simpa using hempty
    exact hkey
  · next hne =>
    split at h
    · cases h
    · next hunknown =>
      obtain rfl := List.mem_singleton.1 h
      exact ⟨rfl, by simpa using hne, Bool.eq_false_iff.2 hunknown⟩

theorem breaks_of_mem_quoteProblems (hvalue : entry.value ≠ "")
    (h : problem ∈ entry.quoteProblems) : entry.Breaks allowed problem.kind := by
  unfold quoteProblems at h
  split at h
  · next hbare =>
    obtain rfl := List.mem_singleton.1 h
    exact ⟨hvalue, by simpa using hbare⟩
  · next hquoted =>
    split at h
    · next hopen =>
      obtain rfl := List.mem_singleton.1 h
      exact ⟨hvalue, by simpa using hquoted, hopen⟩
    · cases h

theorem breaks_of_mem_separatorProblems (hvalue : entry.value ≠ "")
    (h : problem ∈ entry.separatorProblems) : entry.Breaks allowed problem.kind := by
  unfold separatorProblems at h
  split at h
  · cases h
  · next hseparated =>
    obtain rfl := List.mem_singleton.1 h
    exact ⟨hvalue, Bool.eq_false_iff.2 hseparated⟩

theorem breaks_of_mem_valueProblems (h : problem ∈ entry.valueProblems) :
    entry.Breaks allowed problem.kind := by
  unfold valueProblems at h
  split at h
  · next hempty =>
    obtain rfl := List.mem_singleton.1 h
    have hvalue : entry.value = "" := by simpa using hempty
    exact hvalue
  · next hne =>
    have hvalue : entry.value ≠ "" := by simpa using hne
    rcases List.mem_append.1 h with h | h
    · exact breaks_of_mem_quoteProblems hvalue h
    · exact breaks_of_mem_separatorProblems hvalue h

/-- Only rules that are broken are reported. -/
theorem breaks_of_mem_problems (h : problem ∈ entry.problems allowed) :
    entry.Breaks allowed problem.kind := by
  rcases List.mem_append.1 h with h | h
  · exact breaks_of_mem_keyProblems h
  · exact breaks_of_mem_valueProblems h

end Entry

/-- A missing colon is never reported beside a missing quote or a missing key. -/
theorem Entry.Shaped.not_beside_missingSeparator {content : List Char} {base : Offset}
    {found : ScanResult} {entry : Entry} (h : entry.Shaped content base found)
    {allowed : AllowList} {missing : Problem} (hmissing : missing ∈ entry.problems allowed)
    (hkind : missing.kind = .missingSeparator) : ∀ problem ∈ entry.problems allowed,
      problem.kind ≠ .unquotedValue ∧ problem.kind ≠ .emptyKey := by
  have hbreaks := Entry.breaks_of_mem_problems hmissing
  rw [hkind] at hbreaks
  obtain ⟨hvalue, hseparated⟩ := hbreaks
  obtain ⟨hkey, hquoted⟩ := h.unseparated hseparated
  have hquoted := hquoted.resolve_right fun hempty => hvalue hempty.1
  intro problem hproblem
  have hbroken := Entry.breaks_of_mem_problems hproblem
  constructor <;> intro hother <;> rw [hother] at hbroken
  · exact absurd hquoted (Bool.eq_false_iff.1 hbroken.2)
  · exact hkey hbroken

/-- **Shapes.** The entries of a scan are in shape, so validation never misses a colon beside a
quote or a key that is missing too. -/
theorem scan_shaped {content : List Char} {base : Offset}
    (hfits : base + Text.byteLength content ≤ Offset.limit) :
    ∀ entry ∈ (scan content base).entries, entry.Shaped content base (scan content base) ∧
      ∀ allowed, ∀ missing ∈ entry.problems allowed, missing.kind = .missingSeparator →
        ∀ problem ∈ entry.problems allowed,
          problem.kind ≠ .unquotedValue ∧ problem.kind ≠ .emptyKey := by
  intro entry hentry
  have hshaped := shaped_of_mem_entries hfits hentry
  refine ⟨hshaped, ?_⟩
  intro allowed missing hmissing hkind
  exact hshaped.not_beside_missingSeparator hmissing hkind

/-- An unquoted value without a key, a key with a space and no colon, and a value that is cut
off. -/
theorem scan_shaped_brokenPairs :
    5 + Text.byteLength ":x a b\"\\\"\"  c:\"y z".toList ≤ Offset.limit ∧
      (scan ":x a b\"\\\"\"  c:\"y z".toList 5).entries =
        [⟨"", "x", 5, 6, 7, false, false, true⟩, ⟨"a b", "\\\"", 8, 12, 14, true, false, false⟩,
          ⟨"c", "y z", 17, 20, 23, true, true, true⟩] ∧
      (∀ entry ∈ (scan ":x a b\"\\\"\"  c:\"y z".toList 5).entries,
        entry.Shaped ":x a b\"\\\"\"  c:\"y z".toList 5
          (scan ":x a b\"\\\"\"  c:\"y z".toList 5)) ∧
      ∀ problem ∈ Entry.problems .empty ⟨"a b", "\\\"", 8, 12, 14, true, false, false⟩,
        problem.kind ≠ .unquotedValue ∧ problem.kind ≠ .emptyKey := by
  have hentries : (scan ":x a b\"\\\"\"  c:\"y z".toList 5).entries =
      [⟨"", "x", 5, 6, 7, false, false, true⟩, ⟨"a b", "\\\"", 8, 12, 14, true, false, false⟩,
        ⟨"c", "y z", 17, 20, 23, true, true, true⟩] := by
    decide +kernel
  have hall := @scan_shaped ":x a b\"\\\"\"  c:\"y z".toList 5 (by decide)
  refine ⟨by decide, hentries, fun entry hentry => (hall entry hentry).1, ?_⟩
  rw [hentries] at hall
  exact (hall _ (.tail _ (.head _))).2 .empty ⟨.missingSeparator, 11⟩ (by decide +kernel) rfl

end TagLint
