import TagLint.Proofs.Tag.Spans

/-!
# What becomes of each character

The state that a character leads to decides its role: a character belongs to a key or to a
value exactly when the scanner stands in a key or in a value after it. That this is so for
the entries of the *whole* content rests on `countP_covers_entriesFrom`: which of the bytes
already read the entries cover does not depend on what is still to come, so it can be read
off the entry that would be open if the content ended here.

The last section follows the reported characters and those skipped after a closing quote.
-/

namespace TagLint

namespace State

/-- Whether the scanner is inside a key. -/
def inKey : State → Bool
  | .key _ => true
  | _ => false

/-- One step does not change which of the bytes before it are covered. -/
theorem countP_covers_step {before : List Char} {state : State} (c : Char) {position : Offset}
    (hposition : position < Text.byteLength before) {field : RawEntry → Span}
    (hfield : field = RawEntry.key ∨ field = RawEntry.value) :
    (state.step (Text.byteLength before) c).entries.countP
          (fun raw => (field raw).Covers position) +
        ((state.step (Text.byteLength before) c).next.finish?
          (Text.byteLength (before ++ [c]))).toList.countP
            (fun raw => (field raw).Covers position) =
      (state.finish? (Text.byteLength before)).toList.countP
        (fun raw => (field raw).Covers position) := by
  have hmove := step_moves (Text.byteLength before) c state
  generalize state.step (Text.byteLength before) c = result at hmove
  rw [Text.byteLength_concat]
  -- Either the entry under way is the one handed over, or its open end moves past `position`.
  rcases hfield with rfl | rfl
  all_goals
    cases hmove with
    | control => cases state <;> simp [finish?, Pending.close, Span.point, Span.Covers] <;> lia
    | _ => simp [finish?, Pending.close, Span.point, Span.Covers] <;> lia

/-- **Run.** What follows does not change which of the bytes already read are covered. -/
theorem countP_covers_entriesFrom {before : List Char} {state : State} (rest : List Char)
    {position : Offset} (hposition : position < Text.byteLength before)
    {field : RawEntry → Span} (hfield : field = RawEntry.key ∨ field = RawEntry.value) :
    (state.entriesFrom (Text.byteLength before) rest).countP
        (fun raw => (field raw).Covers position) =
      (state.finish? (Text.byteLength before)).toList.countP
        (fun raw => (field raw).Covers position) := by
  induction rest generalizing before state with
  | nil => rfl
  | cons c rest ih =>
    have hmore := Nat.lt_trans hposition (Text.byteLength_lt_concat before c)
    rw [entriesFrom, ← Text.byteLength_concat, List.countP_append, ih hmore]
    exact countP_covers_step c hposition hfield

end State

/-! ## The character between two parts of a content -/

section Position

variable (before : List Char) (c : Char) (after : List Char)

/-- The scanner's state when it reads the character after `before`. -/
def stateAfter : State := (State.between.run 0 before).last

/-- What the scanner does with the character `c` after `before`. -/
def stepAt : Step := (stateAfter before).step (Text.byteLength before) c

theorem fits_stateAfter : (stateAfter before).Fits before := by
  simpa [stateAfter] using State.fits_between.last before

theorem moves_stepAt :
    State.Moves (Text.byteLength before) c (stateAfter before) (stepAt before c) :=
  State.step_moves (Text.byteLength before) c (stateAfter before)

theorem entriesFrom_split :
    rawEntries (before ++ c :: after) = (State.between.run 0 before).entries ++
      ((stepAt before c).entries ++
        (stepAt before c).next.entriesFrom (Text.byteLength (before ++ [c])) after) := by
  rw [State.rawEntries_eq_entriesFrom, State.entriesFrom_append, Nat.zero_add]
  simp [State.entriesFrom, stepAt, stateAfter]

/-- Entries that fit an earlier text cover nothing from there on. -/
theorem countP_covers_eq_zero {field : RawEntry → Span}
    (hfield : field = RawEntry.key ∨ field = RawEntry.value) {raws : List RawEntry}
    (hraws : ∀ raw ∈ raws, raw.Fits before) :
    raws.countP (fun raw => (field raw).Covers (Text.byteLength before)) = 0 := by
  rw [List.countP_eq_zero]
  intro raw hraw hcovers
  have hstop : (field raw).stop ≤ Text.byteLength before := by
    rcases hfield with rfl | rfl
    · exact (hraws raw hraw).key.stop_le
    · exact (hraws raw hraw).inside
  exact Nat.not_lt.2 hstop (of_decide_eq_true hcovers).2

/-- The character is covered as by the entry that would be open just after it. -/
theorem countP_covers_rawEntries {field : RawEntry → Span}
    (hfield : field = RawEntry.key ∨ field = RawEntry.value) :
    (rawEntries (before ++ c :: after)).countP
        (fun raw => (field raw).Covers (Text.byteLength before)) =
      ((stepAt before c).next.finish? (Text.byteLength (before ++ [c]))).toList.countP
        (fun raw => (field raw).Covers (Text.byteLength before)) := by
  have hrun : ∀ raw ∈ (State.between.run 0 before).entries, raw.Fits before := by
    intro raw hraw
    apply fits_of_mem_rawEntries
    exact List.mem_append_left _ hraw
  have hstep : ∀ raw ∈ (stepAt before c).entries, raw.Fits before := by
    intro raw hraw
    exact (((fits_stateAfter before).step c).entry raw hraw).1
  -- Entries finished by then end before the character, and the rest no longer matters.
  have hlater := Text.byteLength_lt_concat before c
  rw [entriesFrom_split, List.countP_append, List.countP_append,
    countP_covers_eq_zero before hfield hrun, countP_covers_eq_zero before hfield hstep,
    State.countP_covers_entriesFrom after hlater hfield, Nat.zero_add, Nat.zero_add]

theorem countP_one_covers {field : RawEntry → Span} {raw : RawEntry} {position : Offset}
    (h : (field raw).Covers position) :
    [raw].countP (fun raw => (field raw).Covers position) = 1 := by
  simp [h]

theorem countP_one_not_covers {field : RawEntry → Span} {raw : RawEntry} {position : Offset}
    (h : ¬ (field raw).Covers position) :
    [raw].countP (fun raw => (field raw).Covers position) = 0 := by
  simp [h]

/-- An empty value covers nothing. -/
theorem countP_point_value {raw : RawEntry} (h : raw.value.start = raw.value.stop)
    (position : Offset) : [raw].countP (fun raw => raw.value.Covers position) = 0 :=
  countP_one_not_covers (Span.not_covers_of_eq h position)

/-- A value under way covers the character that has just joined it. -/
theorem countP_open_value {start : Offset} (hstart : start ≤ Text.byteLength before)
    (pair : Pending) (quoted : Bool) (escapes : UInt32) :
    ((State.value pair start quoted escapes).finish?
        (Text.byteLength (before ++ [c]))).toList.countP
      (fun raw => raw.value.Covers (Text.byteLength before)) = 1 :=
  countP_one_covers ⟨hstart, Text.byteLength_lt_concat before c⟩

/-- A character lies in one value exactly when the scanner is in a value after it. -/
theorem countP_value_covers :
    (rawEntries (before ++ c :: after)).countP
        (fun raw => raw.value.Covers (Text.byteLength before)) =
      if (stepAt before c).next.inValue then 1 else 0 := by
  rw [countP_covers_rawEntries before c after (.inr rfl)]
  have hfits := fits_stateAfter before
  have hmove := moves_stepAt before c
  generalize stepAt before c = result at hmove
  generalize stateAfter before = state at hfits hmove
  cases hmove with
  | control _ hstate =>
    cases state with
    | between | closed => rfl
    | key | separated | opened => exact countP_point_value rfl _
    | value => simp [State.inValue] at hstate
  | space | strayQuote | blankValue | quotesMeet | quoteCloses | bareEnds | swallow => rfl
  | emptyKey | keyStart | keySpace | keyMore | keyColon | keyQuote | quoteOpens =>
    exact countP_point_value rfl _
  | bareStart | quotedStart => exact countP_open_value before c (Nat.le_refl _) _ _ _
  | valueMore => exact countP_open_value before c hfits.2.2.start_le _ _ _

/-- A finished key covers nothing past its end. -/
theorem countP_close_key (pair : Pending) {position : Offset} (h : pair.key.stop ≤ position)
    (value : Span) (quoted unterminated : Bool) :
    [pair.close value quoted unterminated].countP (fun raw => raw.key.Covers position) = 0 := by
  apply countP_one_not_covers
  rintro ⟨-, hstop⟩
  exact Nat.not_lt.2 h hstop

/-- A key under way covers the character that has just joined it. -/
theorem countP_open_key {before : List Char} {start : Offset}
    (h : (State.key start).Fits before) (c : Char) :
    ((State.key start).finish? (Text.byteLength (before ++ [c]))).toList.countP
      (fun raw => raw.key.Covers (Text.byteLength before)) = 1 := by
  have hstart : start ≤ Text.byteLength before := Span.Cuts.start_le h
  exact countP_one_covers ⟨hstart, Text.byteLength_lt_concat before c⟩

/-- A character lies in one key exactly when the scanner is in a key after it. -/
theorem countP_key_covers :
    (rawEntries (before ++ c :: after)).countP
        (fun raw => raw.key.Covers (Text.byteLength before)) =
      if (stepAt before c).next.inKey then 1 else 0 := by
  rw [countP_covers_rawEntries before c after (.inl rfl)]
  have hfits := fits_stateAfter before
  have hmove := moves_stepAt before c
  generalize stepAt before c = result at hmove
  generalize stateAfter before = state at hfits hmove
  cases hmove with
  | control _ hstate =>
    cases state with
    | between | closed => rfl
    | key start => exact countP_open_key hfits c
    | separated pair => exact countP_close_key pair (Nat.le_of_lt hfits.2) _ _ _
    | opened pair => exact countP_close_key pair (Nat.le_of_lt hfits.2) _ _ _
    | value => simp [State.inValue] at hstate
  | space | strayQuote | blankValue | quotesMeet | quoteCloses | bareEnds | swallow => rfl
  | emptyKey | keyColon => exact countP_close_key ⟨_, true⟩ (Nat.le_refl _) _ _ _
  | keyQuote => exact countP_close_key ⟨_, false⟩ (Nat.le_refl _) _ _ _
  | keyStart =>
    have hstart : (State.key (Text.byteLength before)).Fits before := Span.Cuts.point before
    exact countP_open_key hstart c
  | keySpace | keyMore => exact countP_open_key hfits c
  | quoteOpens | bareStart | quotedStart =>
    exact countP_close_key _ (Nat.le_of_lt hfits.2) _ _ _
  | valueMore =>
    obtain ⟨-, hstop, hvalue⟩ := hfits
    exact countP_close_key _ (Nat.le_trans hstop hvalue.start_le) _ _ _

end Position

/-! ## Reported characters -/

namespace State

theorem invalid_cons (offset : Offset) (state : State) (c : Char) (cs : List Char) :
    (state.run offset (c :: cs)).invalid =
      (if (state.step offset c).invalid then [offset] else []) ++
        ((state.step offset c).next.run (offset + c.utf8Size) cs).invalid := by
  rw [run]
  cases (state.step offset c).invalid <;> rfl

theorem invalid_bounds {offset position : Nat} {state : State} {cs : List Char}
    (h : position ∈ (state.run offset cs).invalid) :
    offset ≤ position ∧ position < offset + Text.byteLength cs := by
  induction cs generalizing offset state with
  | nil => simp [run] at h
  | cons c cs ih =>
    have hpos := c.utf8Size_pos
    rw [Text.byteLength_cons]
    rw [invalid_cons] at h
    rcases List.mem_append.1 h with hfirst | hrest
    · have heq : position = offset := by
        split at hfirst <;> simp_all
      omega
    · obtain ⟨hlow, hhigh⟩ := ih hrest
      omega

/-- Characters are reported from left to right, each once. -/
theorem invalid_ascending (offset : Nat) (state : State) (cs : List Char) :
    (state.run offset cs).invalid.Pairwise (· < ·) := by
  induction cs generalizing offset state with
  | nil => exact .nil
  | cons c cs ih =>
    rw [invalid_cons]
    cases (state.step offset c).invalid with
    | false => exact ih _ _
    | true =>
      refine List.pairwise_cons.2 ⟨?_, ih _ _⟩
      intro position hposition
      have hlow : offset + c.utf8Size ≤ position := (invalid_bounds hposition).1
      exact Nat.lt_of_lt_of_le (Nat.lt_add_of_pos_right c.utf8Size_pos) hlow

/-- Every reported position is that of a character whose step is invalid. -/
theorem exists_of_mem_invalid {offset position : Offset} {state : State} {cs : List Char}
    (h : position ∈ (state.run offset cs).invalid) :
    ∃ before c after, cs = before ++ c :: after ∧ position = offset + Text.byteLength before ∧
      ((state.run offset before).last.step position c).invalid = true := by
  induction cs generalizing offset state with
  | nil => simp [run] at h
  | cons c cs ih =>
    rw [invalid_cons] at h
    rcases List.mem_append.1 h with hfirst | hrest
    · cases hinvalid : (state.step offset c).invalid with
      | false => simp [hinvalid] at hfirst
      | true =>
        obtain rfl : position = offset := by simpa [hinvalid] using hfirst
        exact ⟨[], c, cs, rfl, rfl, hinvalid⟩
    · obtain ⟨before, d, after, rfl, hposition, hstep⟩ := ih hrest
      refine ⟨c :: before, d, after, rfl, ?_, hstep⟩
      rw [hposition, Text.byteLength_cons, Nat.add_assoc]

end State

/-- A character is reported as often as its step is invalid, once or not at all. -/
theorem count_invalidOffsets (before : List Char) (c : Char) (after : List Char) :
    (invalidOffsets (before ++ c :: after)).count (Text.byteLength before) =
      if (stepAt before c).invalid then 1 else 0 := by
  have hsplit : invalidOffsets (before ++ c :: after) = (State.between.run 0 before).invalid ++
      ((if (stepAt before c).invalid then [Text.byteLength before] else []) ++
        ((stepAt before c).next.run (Text.byteLength before + c.utf8Size) after).invalid) := by
    rw [invalidOffsets, State.run_append, Nat.zero_add]
    exact congrArg _ (State.invalid_cons _ _ _ _)
  have hearlier : Text.byteLength before ∉ (State.between.run 0 before).invalid := by
    intro h
    obtain ⟨-, hhigh⟩ := State.invalid_bounds h
    omega
  have hlater : Text.byteLength before ∉
      ((stepAt before c).next.run (Text.byteLength before + c.utf8Size) after).invalid := by
    intro h
    have hpos := c.utf8Size_pos
    obtain ⟨hlow, -⟩ := State.invalid_bounds h
    omega
  rw [hsplit, List.count_append, List.count_append, List.count_eq_zero.2 hearlier,
    List.count_eq_zero.2 hlater, Nat.zero_add, Nat.add_zero]
  cases (stepAt before c).invalid <;> simp

/-! ## Characters skipped after a closing quote -/

/-- The offsets of the characters that the scanner skips after a closing quote. -/
def State.skipped (offset : Offset) (state : State) : List Char → List Offset
  | [] => []
  | c :: cs =>
    let rest := (state.step offset c).next.skipped (offset + c.utf8Size) cs
    if state = .closed ∧ Text.isControl c = false then offset :: rest else rest

/-- The offsets of the characters of a content that are skipped after a closing quote. -/
def skippedOffsets (content : List Char) : List Offset := State.between.skipped 0 content

namespace State

theorem mem_skipped_of_closed {offset : Offset} {state : State} {before after : List Char}
    {c : Char} (hstate : (state.run offset before).last = .closed)
    (hc : Text.isControl c = false) :
    offset + Text.byteLength before ∈ state.skipped offset (before ++ c :: after) := by
  induction before generalizing offset state with
  | nil =>
    obtain rfl : state = .closed := hstate
    simp [skipped, hc]
  | cons d before ih =>
    have hrest : offset + d.utf8Size + Text.byteLength before ∈
        (state.step offset d).next.skipped (offset + d.utf8Size) (before ++ c :: after) :=
      ih hstate
    rw [List.cons_append, skipped, Text.byteLength_cons, ← Nat.add_assoc]
    split
    · exact List.mem_cons_of_mem _ hrest
    · exact hrest

/-- **Step.** Only a quoted entry leads to the state in which a character is skipped. -/
theorem skipped_step (offset : Offset) (c : Char) (state : State) :
    (if state = .closed ∧ Text.isControl c = false then 1 else 0) +
        (if (state.step offset c).next = .closed then 1 else 0) ≤
      (state.step offset c).entries.countP (·.quoted) + if state = .closed then 1 else 0 := by
  have hmove := step_moves offset c state
  generalize state.step offset c = result at hmove
  cases hmove with
  | control hc =>
    rw [if_neg (by simp [hc]), Nat.zero_add]
    exact Nat.le_add_left _ _
  | swallow hc => simp [hc]
  | _ => simp [Pending.close]

/-- **Run.** Every skipped character follows a quoted entry of its own. -/
theorem length_skipped_le (offset : Offset) (state : State) (cs : List Char) :
    (state.skipped offset cs).length ≤
      (state.entriesFrom offset cs).countP (·.quoted) + if state = .closed then 1 else 0 := by
  induction cs generalizing offset state with
  | nil => exact Nat.zero_le _
  | cons c cs ih =>
    have hstep := skipped_step offset c state
    have hrest := ih (offset + c.utf8Size) (state.step offset c).next
    have hcount : (state.skipped offset (c :: cs)).length =
        (if state = .closed ∧ Text.isControl c = false then 1 else 0) +
          ((state.step offset c).next.skipped (offset + c.utf8Size) cs).length := by
      rw [skipped]
      split
      · rw [List.length_cons, Nat.add_comm]
      · rw [Nat.zero_add]
    rw [hcount, entriesFrom, List.countP_append]
    omega

end State

end TagLint
