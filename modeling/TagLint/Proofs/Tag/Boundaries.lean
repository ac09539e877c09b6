import TagLint.Proofs.Tag.Accounting

/-!
# Offsets at character boundaries

Offsets count bytes, but each of them should fall at a boundary of the content: at 0, where
a character starts, or at the end. `scan_onBoundary` says how far that goes. The offsets of
problems and keys are boundaries, and so are both ends of a value, with one exception.

An empty value is placed one byte before the character that ends it. What stands there is
the colon or the quote that announces the value, or the last of the control characters that
were skipped since (`State.Announced`). A control character from U+0080 on takes two bytes,
and the value then falls between them.
-/

namespace TagLint

namespace Text

theorem isBoundary_iff {cs : List Char} {position : Nat} :
    isBoundary cs position = true ↔
      ∃ front rest, cs = front ++ rest ∧ position = byteLength front := by
  constructor
  · intro h
    induction cs generalizing position with
    | nil =>
      cases position with
      | zero => exact ⟨[], [], rfl, rfl⟩
      | succ n => simp [isBoundary, dropBytes?] at h
    | cons c cs ih =>
      cases position with
      | zero => exact ⟨[], c :: cs, rfl, rfl⟩
      | succ n =>
        by_cases hc : c.utf8Size ≤ n + 1
        · have hrest : isBoundary cs (n + 1 - c.utf8Size) = true := by
            simpa [isBoundary, dropBytes?, hc] using h
          obtain ⟨front, rest, rfl, hposition⟩ := ih hrest
          refine ⟨c :: front, rest, rfl, ?_⟩
          rw [byteLength_cons]
          omega
        · simp [isBoundary, dropBytes?, hc] at h
  · rintro ⟨front, rest, rfl, rfl⟩
    simp [isBoundary, dropBytes?_append]

theorem utf8Size_of_control {c : Char} (h : isControl c = true) :
    c.utf8Size = 1 ∨ c.utf8Size = 2 := by
  have hsmall : c.toNat ≤ 0x9F := by
    simp only [isControl, Bool.or_eq_true, Bool.and_eq_true, decide_eq_true_eq] at h
    omega
  rw [Char.utf8Size_eq_one_iff, Char.utf8Size_eq_two_iff]
  simp only [UInt32.le_iff_toNat_le, UInt32.lt_iff_toNat_lt]
  show c.toNat ≤ 0x7F ∨ 0x7F < c.toNat ∧ c.toNat ≤ 0x7FF
  omega

end Text

/-- The offset is that of a boundary of a content that begins at `base`. -/
def OnBoundary (content : List Char) (base offset : Offset) : Prop :=
  base ≤ offset ∧ Text.isBoundary content (offset - base) = true

instance (content : List Char) (base offset : Offset) :
    Decidable (OnBoundary content base offset) := inferInstanceAs (Decidable (_ ∧ _))

/-! ## What announces a value -/

/-- A character that can come just before a value. -/
def Announces (c : Char) : Prop := c = ':' ∨ c = '"' ∨ Text.isControl c = true

/-- A character that can come just before a value ends at the position. -/
def AnnouncedAt (content : List Char) (position : Offset) : Prop :=
  ∃ front c rest, content = front ++ c :: rest ∧ Announces c ∧
    position = Text.byteLength (front ++ [c])

namespace AnnouncedAt

theorem concat {front : List Char} {c : Char} (h : Announces c) :
    AnnouncedAt (front ++ [c]) (Text.byteLength (front ++ [c])) :=
  ⟨front, c, [], rfl, h, rfl⟩

theorem append {content : List Char} {position : Offset} (h : AnnouncedAt content position)
    (more : List Char) : AnnouncedAt (content ++ more) position := by
  obtain ⟨front, c, rest, rfl, hc, hposition⟩ := h
  exact ⟨front, c, rest ++ more, by simp, hc, hposition⟩

theorem pos {content : List Char} {position : Offset} (h : AnnouncedAt content position) :
    0 < position := by
  obtain ⟨front, c, rest, -, -, rfl⟩ := h
  exact Nat.lt_of_le_of_lt (Nat.zero_le _) (Text.byteLength_lt_concat front c)

/-- At the end of a text it is the last character that announces. -/
theorem eq_concat {before : List Char} (h : AnnouncedAt before (Text.byteLength before)) :
    ∃ front c, before = front ++ [c] ∧ Announces c := by
  obtain ⟨front, c, rest, rfl, hc, hposition⟩ := h
  simp only [Text.byteLength_append, Text.byteLength_cons, Text.byteLength_nil] at hposition
  have hrest : rest = [] := Text.eq_nil_of_byteLength_eq_zero (by lia)
  exact ⟨front, c, by rw [hrest], hc⟩

end AnnouncedAt

namespace State

/-- A value under way, or awaited, comes just after a character that announces it. -/
def Announced (before : List Char) : State → Prop
  | .between => True
  | .closed => True
  | .key _ => True
  | .separated _ => AnnouncedAt before (Text.byteLength before)
  | .opened _ => AnnouncedAt before (Text.byteLength before)
  | .value _ start _ _ => AnnouncedAt before start

/-- **Step.** -/
theorem Announced.next {before : List Char} {state : State} (h : state.Announced before)
    (c : Char) :
    (state.step (Text.byteLength before) c).next.Announced (before ++ [c]) := by
  have hmove := step_moves (Text.byteLength before) c state
  generalize state.step (Text.byteLength before) c = result at hmove
  cases hmove with
  | control hc hstate =>
    -- A control character before a value takes over from what announced the value.
    cases state with
    | between | closed | key => trivial
    | separated | opened => exact AnnouncedAt.concat (.inr (.inr hc))
    | value => simp [inValue] at hstate
  | emptyKey hc | keyColon hc => exact AnnouncedAt.concat (.inl hc)
  | keyQuote hc | quoteOpens hc => exact AnnouncedAt.concat (.inr (.inl hc))
  | bareStart | quotedStart | valueMore => exact AnnouncedAt.append h [c]
  | space | strayQuote | keyStart | keySpace | keyMore | blankValue | quotesMeet | quoteCloses
  | bareEnds | swallow => trivial

end State

/-! ## Where values stand -/

/-- The span is the point inside a control character of two bytes before the space or the
quote that ends an empty value. -/
def Span.SplitsControl (span : Span) (content : List Char) : Prop :=
  ∃ before c d after, content = before ++ c :: d :: after ∧ Text.isControl c = true ∧
    c.utf8Size = 2 ∧ (d = ' ' ∨ d = '"') ∧ span = .point (Text.byteLength before + 1)

/-- The places where a value can stand. -/
inductive ValuePlace (content : List Char) : Span → Prop
  /-- A text after what announces it. -/
  | text {span : Span} : span.Cuts content → AnnouncedAt content span.start →
      ValuePlace content span
  /-- A boundary. -/
  | point {before after : List Char} : content = before ++ after →
      ValuePlace content (.point (Text.byteLength before))
  | split {span : Span} : span.SplitsControl content → ValuePlace content span

/-- One byte before the character that ends an empty value is a boundary, unless that byte
ends a control character of two. -/
theorem valuePlace_before {before rest : List Char} {d : Char}
    (h : AnnouncedAt before (Text.byteLength before)) (hd : d = ' ' ∨ d = '"') :
    ValuePlace (before ++ d :: rest) (.point (Text.byteLength before - 1)) := by
  obtain ⟨front, c, rfl, hc⟩ := h.eq_concat
  have hsize : c.utf8Size = 1 ∨ (Text.isControl c = true ∧ c.utf8Size = 2) := by
    rcases hc with rfl | rfl | hcontrol
    · exact .inl rfl
    · exact .inl rfl
    · exact (Text.utf8Size_of_control hcontrol).imp_right fun htwo => ⟨hcontrol, htwo⟩
  rcases hsize with hone | ⟨hcontrol, htwo⟩
  · have hstart : Text.byteLength (front ++ [c]) - 1 = Text.byteLength front := by
      rw [Text.byteLength_concat, hone, Nat.add_sub_cancel]
    rw [hstart]
    exact .point (List.append_assoc front [c] (d :: rest))
  · have hinside : Text.byteLength (front ++ [c]) - 1 = Text.byteLength front + 1 := by
      rw [Text.byteLength_concat, htwo]
      omega
    rw [hinside]
    exact .split ⟨front, c, d, rest, by simp, hcontrol, htwo, hd, rfl⟩

theorem valuePlace_of_mem_rawEntries {content : List Char} {raw : RawEntry}
    (h : raw ∈ rawEntries content) : ValuePlace content raw.value := by
  refine @forall_mem_rawEntries (fun before state => state.Fits before ∧ state.Announced before)
    (fun content raw => ValuePlace content raw.value) ⟨trivial, trivial⟩ ?next ?entry ?finish
    content raw h
  case next =>
    intro before state c hinv
    exact ⟨(hinv.1.step c).next, hinv.2.next c⟩
  case entry =>
    intro before state c rest hinv raw hraw
    obtain ⟨hfits, hannounced⟩ := hinv
    have hmove := State.step_moves (Text.byteLength before) c state
    generalize state.step (Text.byteLength before) c = result at hraw hmove
    cases hmove with
    | blankValue hc =>
      obtain rfl := List.mem_singleton.1 hraw
      exact valuePlace_before hannounced (.inl hc)
    | quotesMeet hc =>
      obtain rfl := List.mem_singleton.1 hraw
      exact valuePlace_before hannounced (.inr hc)
    | quoteCloses | bareEnds =>
      obtain rfl := List.mem_singleton.1 hraw
      obtain ⟨-, -, hvalue⟩ := hfits
      exact .text (hvalue.append _) (hannounced.append _)
    | _ => simp at hraw
  case finish =>
    intro before state hinv raw hraw
    obtain ⟨hfits, hannounced⟩ := hinv
    cases state with
    | between | closed => simp [State.finish?] at hraw
    | key | separated | opened =>
      obtain rfl := Option.some.inj hraw
      exact .point (List.append_nil before).symm
    | value =>
      obtain rfl := Option.some.inj hraw
      exact .text hfits.2.2 hannounced

/-! ## Boundaries -/

section Boundary

variable {content : List Char} {base : Offset} {span : Span}

theorem onBoundary_append (front rest : List Char) (base : Offset) :
    OnBoundary (front ++ rest) base (base + Text.byteLength front) := by
  refine ⟨Nat.le_add_right _ _, ?_⟩
  rw [Nat.add_sub_cancel_left]
  exact Text.isBoundary_iff.2 ⟨front, rest, rfl, rfl⟩

theorem Span.Cuts.onBoundary (h : span.Cuts content) (base : Offset) :
    OnBoundary content base (base + span.start) ∧ OnBoundary content base (base + span.stop) := by
  obtain ⟨text, before, after, rfl, rfl⟩ := h
  refine ⟨onBoundary_append before (text ++ after) base, ?_⟩
  rw [← List.append_assoc, ← Text.byteLength_append]
  exact onBoundary_append (before ++ text) after base

theorem Span.SplitsControl.not_onBoundary (h : span.SplitsControl content) (base : Offset) :
    ¬ OnBoundary content base (base + span.start) := by
  obtain ⟨before, c, d, after, rfl, -, htwo, -, rfl⟩ := h
  rintro ⟨-, hboundary⟩
  rw [Nat.add_sub_cancel_left, Text.isBoundary_iff] at hboundary
  obtain ⟨front, rest, hsplit, hposition⟩ := hboundary
  have houtside := Text.boundary_outside hsplit
  simp only [Span.point] at hposition
  omega

/-- Both ends of a value are boundaries, or it splits a control character and neither is. -/
theorem ValuePlace.onBoundary_iff (h : ValuePlace content span) (base : Offset) :
    (OnBoundary content base (base + span.start) ↔ ¬ span.SplitsControl content) ∧
      (OnBoundary content base (base + span.stop) ↔ ¬ span.SplitsControl content) := by
  by_cases hsplit : span.SplitsControl content
  · have hpoint : span.stop = span.start := by
      obtain ⟨before, c, d, after, -, -, -, -, rfl⟩ := hsplit
      rfl
    rw [hpoint]
    simp [hsplit, hsplit.not_onBoundary base]
  · have hends : OnBoundary content base (base + span.start) ∧
        OnBoundary content base (base + span.stop) := by
      cases h with
      | text hcuts => exact hcuts.onBoundary base
      | @point before after hcontent =>
        subst hcontent
        exact ⟨onBoundary_append before after base, onBoundary_append before after base⟩
      | split h => exact absurd h hsplit
    simp [hsplit, hends]

theorem scan_onBoundary (hfits : base + Text.byteLength content ≤ Offset.limit) :
    (∀ problem ∈ (scan content base).problems, OnBoundary content base problem.offset) ∧
      ∀ entry ∈ (scan content base).entries,
        OnBoundary content base entry.keyOffset ∧
        (OnBoundary content base entry.valueOffset ↔
          ¬ (entry.valueSpan base).SplitsControl content) ∧
        (OnBoundary content base entry.valueEnd ↔
          ¬ (entry.valueSpan base).SplitsControl content) := by
  constructor
  · intro problem hproblem
    rw [scan_of_fits hfits] at hproblem
    obtain ⟨offset, hoffset, rfl⟩ := List.mem_map.1 hproblem
    obtain ⟨before, c, after, rfl, rfl, -⟩ := State.exists_of_mem_invalid hoffset
    rw [Nat.zero_add]
    exact onBoundary_append before (c :: after) base
  · intro entry hentry
    obtain ⟨raw, hraw, rfl, -, hspan⟩ := exists_raw_of_mem hfits hentry
    rw [hspan]
    exact ⟨((fits_of_mem_rawEntries hraw).key.onBoundary base).1,
      (valuePlace_of_mem_rawEntries hraw).onBoundary_iff base⟩

end Boundary

/-- An empty value after U+0085, which takes the bytes 2 and 3 of the content. -/
theorem scan_onBoundary_splitControl :
    0 + Text.byteLength "k:\u0085 ".toList ≤ Offset.limit ∧
      (scan "k:\u0085 ".toList 0).entries = [⟨"k", "", 0, 3, 3, false, false, true⟩] ∧
      (scan "k:\u0085 ".toList 0).problems = [⟨.invalidKeyChar, 2⟩] ∧
      OnBoundary "k:\u0085 ".toList 0 0 ∧ OnBoundary "k:\u0085 ".toList 0 2 ∧
      (OnBoundary "k:\u0085 ".toList 0 3 ↔ ¬ (⟨3, 3⟩ : Span).SplitsControl "k:\u0085 ".toList) := by
  have hentries : (scan "k:\u0085 ".toList 0).entries =
      [⟨"k", "", 0, 3, 3, false, false, true⟩] := by
    decide +kernel
  have hproblems : (scan "k:\u0085 ".toList 0).problems = [⟨.invalidKeyChar, 2⟩] := by
    decide +kernel
  have hbounds := @scan_onBoundary "k:\u0085 ".toList 0 (by decide)
  have hproblem := hbounds.1 _ (hproblems ▸ List.mem_singleton_self _)
  have hentry := hbounds.2 _ (hentries ▸ List.mem_singleton_self _)
  exact ⟨by decide, hentries, hproblems, hentry.1, hproblem, hentry.2.1⟩

theorem not_forall_scan_onBoundary :
    ¬ ∀ (content : List Char) (base : Offset), base + Text.byteLength content ≤ Offset.limit →
      (∀ entry ∈ (scan content base).entries, OnBoundary content base entry.keyOffset ∧
        OnBoundary content base entry.valueOffset ∧ OnBoundary content base entry.valueEnd) ∧
      ∀ problem ∈ (scan content base).problems, OnBoundary content base problem.offset := by
  intro h
  have hall : ∀ entry ∈ (scan "k:\u0085 ".toList 0).entries,
      OnBoundary "k:\u0085 ".toList 0 entry.valueOffset := fun entry hentry =>
    ((h "k:\u0085 ".toList 0 (by decide)).1 entry hentry).2.1
  revert hall
  decide +kernel

end TagLint
