import TagLint.Proofs.Tag.Spans

/-!
# The quote that opens a value

Between the quote that opens a value and the value itself the scanner skips control characters, and
nothing else. So a value that follows its key with no colon between them stands a known way behind
the key: the key ends at the quote, control characters may follow, and then the value begins
(`opensAt_of_mem_rawEntries`).
-/

namespace TagLint

/-- A quote at the first position opens a value that begins at the second. -/
def OpensAt (content : List Char) (quote value : Offset) : Prop :=
  ∃ front controls rest, content = front ++ '"' :: (controls ++ rest) ∧
    quote = Text.byteLength front ∧ value = Text.byteLength (front ++ '"' :: controls) ∧
    ∀ c ∈ controls, Text.isControl c = true

namespace OpensAt

variable {content : List Char} {quote value : Offset}

theorem append (h : OpensAt content quote value) (more : List Char) :
    OpensAt (content ++ more) quote value := by
  obtain ⟨front, controls, rest, rfl, hquote, hvalue, hcontrols⟩ := h
  exact ⟨front, controls, rest ++ more, by simp, hquote, hvalue, hcontrols⟩

/-- A quote opens a value just after it. -/
theorem here (front : List Char) :
    OpensAt (front ++ ['"']) (Text.byteLength front) (Text.byteLength (front ++ ['"'])) :=
  ⟨front, [], [], rfl, rfl, rfl, by simp⟩

/-- A control character keeps the value waiting. -/
theorem concat (h : OpensAt content quote (Text.byteLength content)) {c : Char}
    (hc : Text.isControl c = true) :
    OpensAt (content ++ [c]) quote (Text.byteLength (content ++ [c])) := by
  obtain ⟨front, controls, rest, rfl, hquote, hvalue, hcontrols⟩ := h
  have hrest : rest = [] := by
    simp only [Text.byteLength_append, Text.byteLength_cons] at hvalue
    exact Text.eq_nil_of_byteLength_eq_zero (by lia)
  subst hrest
  refine ⟨front, controls ++ [c], [], by simp, hquote, by simp, ?_⟩
  intro d hd
  rcases List.mem_append.1 hd with hd | hd
  · exact hcontrols d hd
  · exact List.mem_singleton.1 hd ▸ hc

/-- What stands from the quote up to the value. -/
theorem spells (h : OpensAt content quote value) :
    ∃ controls, (∀ c ∈ controls, Text.isControl c = true) ∧
      (⟨quote, value⟩ : Span).Spells content ('"' :: controls) := by
  obtain ⟨front, controls, rest, rfl, rfl, rfl, hcontrols⟩ := h
  exact ⟨controls, hcontrols, front, rest, by simp, by simp⟩

end OpensAt

namespace State

/-- A pair without a colon has had its opening quote where its key ends. -/
def Opening (before : List Char) : State → Prop
  | .separated pair => pair.separated = true
  | .opened pair =>
    pair.separated = false → OpensAt before pair.key.stop (Text.byteLength before)
  | .value pair start _ _ => pair.separated = false → OpensAt before pair.key.stop start
  | _ => True

/-- **Step.** -/
theorem Opening.next {before : List Char} {state : State} (h : state.Opening before) (c : Char) :
    (state.step (Text.byteLength before) c).next.Opening (before ++ [c]) := by
  have hmove := step_moves (Text.byteLength before) c state
  generalize state.step (Text.byteLength before) c = result at hmove
  cases hmove with
  | control hc hstate =>
    cases state with
    | between | closed | key => trivial
    | separated => exact h
    | opened => exact fun hseparated => (h hseparated).concat hc
    | value => simp [inValue] at hstate
  | emptyKey | keyColon => rfl
  | keyQuote hc =>
    intro _
    rw [hc]
    exact .here before
  | quoteOpens | bareStart =>
    -- What has had a colon needs no quote.
    intro hseparated
    exact absurd (hseparated.symm.trans h) Bool.false_ne_true
  | quotedStart | valueMore => exact fun hseparated => (h hseparated).append [c]
  | space | strayQuote | keyStart | keySpace | keyMore | blankValue | quotesMeet | quoteCloses
  | bareEnds | swallow => trivial

end State

/-- A value that is there, with no colon before it, is opened by a quote where its key ends. -/
theorem opensAt_of_mem_rawEntries {content : List Char} {raw : RawEntry}
    (h : raw ∈ rawEntries content) (hseparated : raw.separated = false)
    (hvalue : raw.value.cut content ≠ "") : OpensAt content raw.key.stop raw.value.start := by
  revert hseparated hvalue
  refine @forall_mem_rawEntries (fun before state => state.Opening before)
    (fun content raw => raw.separated = false → raw.value.cut content ≠ "" →
      OpensAt content raw.key.stop raw.value.start) trivial ?next ?entry ?finish content raw h
  case next =>
    intro before state c hopening
    exact hopening.next c
  case entry =>
    intro before state c rest hopening raw hraw hseparated hvalue
    have hmove := State.step_moves (Text.byteLength before) c state
    generalize state.step (Text.byteLength before) c = result at hraw hmove
    cases hmove with
    | blankValue | quotesMeet =>
      obtain rfl := List.mem_singleton.1 hraw
      exact absurd (Span.cut_point _ _) hvalue
    | quoteCloses | bareEnds =>
      obtain rfl := List.mem_singleton.1 hraw
      exact (hopening hseparated).append (c :: rest)
    | _ => simp at hraw
  case finish =>
    intro before state hopening raw hraw hseparated hvalue
    cases state with
    | between | closed => simp [State.finish?] at hraw
    | key | separated | opened =>
      obtain rfl := Option.some.inj hraw
      exact absurd (Span.cut_point _ _) hvalue
    | value =>
      obtain rfl := Option.some.inj hraw
      exact hopening hseparated

end TagLint
