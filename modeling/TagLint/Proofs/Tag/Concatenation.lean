import TagLint.Proofs.Tag.Spans

/-!
# Tags side by side

Scanning has no memory across a place where nothing is under way. If a content leaves the
scanner between pairs, or just after a closing quote, then a space and a second content after
it are scanned as if the second content stood alone, further on in the source
(`scan_joined`).

The scanner sees offsets only to remember them, so moving it along moves all it reports by
the same distance (`State.step_move`, `State.run_move`). The one transition that computes with
an offset subtracts one byte, for the place of an empty value, and by then at least one
character has been read.
-/

namespace TagLint

/-! ## Moving along -/

/-- The span that lies `distance` bytes further on. -/
def Span.move (distance : Nat) (span : Span) : Span :=
  ⟨span.start + distance, span.stop + distance⟩

def Pending.move (distance : Nat) (pair : Pending) : Pending :=
  { pair with key := pair.key.move distance }

def RawEntry.move (distance : Nat) (raw : RawEntry) : RawEntry :=
  { raw with key := raw.key.move distance, value := raw.value.move distance }

/-- The state of a scanner that began `distance` bytes further on. -/
def State.move (distance : Nat) : State → State
  | .between => .between
  | .key start => .key (start + distance)
  | .separated pair => .separated (pair.move distance)
  | .opened pair => .opened (pair.move distance)
  | .value pair start quoted escapes =>
    .value (pair.move distance) (start + distance) quoted escapes
  | .closed => .closed

def Step.move (distance : Nat) (step : Step) : Step :=
  ⟨step.next.move distance, step.entry?.map (RawEntry.move distance), step.invalid⟩

def Trace.move (distance : Nat) (trace : Trace) : Trace :=
  ⟨trace.entries.map (RawEntry.move distance), trace.invalid.map (· + distance),
    trace.last.move distance⟩

/-- An empty value is placed one byte back, and its key ends before the offset, so the place
moves along. -/
theorem Pending.Fits.move_point {before : List Char} {pair : Pending} (h : pair.Fits before)
    (distance : Nat) :
    (Span.point (Text.byteLength before - 1)).move distance =
      .point (Text.byteLength before + distance - 1) := by
  have hpos : 1 ≤ Text.byteLength before := Nat.one_le_of_lt h.2
  simp only [Span.point, Span.move, Nat.sub_add_comm hpos]

namespace State

variable {before : List Char} {state : State}

@[simp] theorem inValue_move (distance : Nat) (state : State) :
    (state.move distance).inValue = state.inValue := by
  cases state <;> rfl

theorem advance_move (h : state.Fits before) (distance : Nat) (c : Char) :
    (state.move distance).advance (Text.byteLength before + distance) c =
      (state.advance (Text.byteLength before) c).move distance := by
  cases state with
  | between | key | value =>
    simp only [advance, apply_ite (Step.move distance)]
    rfl
  | separated pair =>
    simp only [move, advance, apply_ite (Step.move distance), ← Pending.Fits.move_point h]
    rfl
  | opened pair =>
    simp only [move, advance, apply_ite (Step.move distance), ← Pending.Fits.move_point h]
    rfl
  | closed => rfl

/-- **Step.** What a character does to a scanner further on is what it does here, further
on. -/
theorem step_move (h : state.Fits before) (distance : Nat) (c : Char) :
    (state.move distance).step (Text.byteLength before + distance) c =
      (state.step (Text.byteLength before) c).move distance := by
  rw [step, step, inValue_move, advance_move h, apply_ite (Step.move distance)]
  rfl

/-- **Run.** -/
theorem run_move (h : state.Fits before) (distance : Nat) (cs : List Char) :
    (state.move distance).run (Text.byteLength before + distance) cs =
      (state.run (Text.byteLength before) cs).move distance := by
  induction cs generalizing before state with
  | nil => rfl
  | cons c cs ih =>
    have hstep := step_move h distance c
    have hrest := ih (h.step c).next
    rw [Text.byteLength_concat, Nat.add_right_comm] at hrest
    simp only [run, hstep, Step.move, hrest, Trace.move, List.map_append, Option.toList_map]
    split <;> rfl

theorem finish?_move (distance : Nat) (stop : Offset) (state : State) :
    (state.move distance).finish? (stop + distance) =
      (state.finish? stop).map (RawEntry.move distance) := by
  cases state <;> rfl

end State

/-! ## Two contents -/

theorem Span.Spells.prepend {span : Span} {content text : List Char}
    (h : span.Spells content text) (front : List Char) :
    (span.move (Text.byteLength front)).Spells (front ++ content) text := by
  obtain ⟨before, after, rfl, rfl⟩ := h
  refine ⟨front ++ before, after, by simp, ?_⟩
  simp only [Span.move, Text.byteLength_append]
  lia

section Cut

variable {span : Span} {content : List Char}

theorem Span.cut_append (h : span.Cuts content ∨ span.start = span.stop) (rest : List Char) :
    span.cut (content ++ rest) = span.cut content := by
  rcases h with ⟨text, hspells⟩ | hpoint
  · rw [cut_of_spells hspells, cut_of_spells (hspells.append rest)]
  · rw [cut_eq_empty hpoint, cut_eq_empty hpoint]

theorem Span.cut_move (h : span.Cuts content ∨ span.start = span.stop) (front : List Char) :
    (span.move (Text.byteLength front)).cut (front ++ content) = span.cut content := by
  rcases h with ⟨text, hspells⟩ | hpoint
  · rw [cut_of_spells hspells, cut_of_spells (hspells.prepend front)]
  · have hmoved : (span.move (Text.byteLength front)).start =
        (span.move (Text.byteLength front)).stop := by
      simp only [move, hpoint]
    rw [cut_eq_empty hpoint, cut_eq_empty hmoved]

end Cut

/-- An entry of the first part of a content is the same entry in the whole. -/
theorem ofRaw_append {content : List Char} {raw : RawEntry} (h : raw.Fits content)
    (rest : List Char) (toSource : Offset → Offset) :
    Entry.ofRaw (content ++ rest) toSource raw = Entry.ofRaw content toSource raw := by
  simp only [Entry.ofRaw, Span.cut_append (.inl h.key), Span.cut_append h.value]

/-- Saturation forgets how an offset was reached. -/
theorem shift_add (base offset distance : Nat) :
    Offset.shift base (offset + distance) = Offset.shift (base + distance) offset := by
  rw [Offset.shift, Offset.shift, Nat.add_right_comm, Nat.add_assoc]

/-- An entry of the last part of a content is the same entry of that part alone, further on
in the source. -/
theorem ofRaw_move {content : List Char} {raw : RawEntry} (h : raw.Fits content)
    (front : List Char) (base : Offset) :
    Entry.ofRaw (front ++ content) (Offset.shift base) (raw.move (Text.byteLength front)) =
      Entry.ofRaw content (Offset.shift (base + Text.byteLength front)) raw := by
  simp only [Entry.ofRaw, RawEntry.move, Span.cut_move (.inl h.key), Span.cut_move h.value]
  simp only [Span.move, shift_add]

/-! ## Clean fronts -/

/-- The content leaves nothing under way: the scanner stands between pairs, or just after a
closing quote. -/
def EndsClean (content : List Char) : Prop :=
  (State.between.run 0 content).last = .between ∨ (State.between.run 0 content).last = .closed

instance (content : List Char) : Decidable (EndsClean content) :=
  inferInstanceAs (Decidable (_ ∨ _))

section Clean

variable {front : List Char}

/-- A space after such a content goes by unnoticed, as the character skipped after a closing
quote or as one between pairs. -/
theorem EndsClean.run_space (h : EndsClean front) :
    State.between.run 0 (front ++ [' ']) =
      ⟨rawEntries front, invalidOffsets front, .between⟩ := by
  have hstep (offset : Offset) : (State.between.run 0 front).last.step offset ' ' =
      .advance .between := by
    rcases h with h | h <;> rw [h] <;> rfl
  have hfinish (stop : Offset) : (State.between.run 0 front).last.finish? stop = none := by
    rcases h with h | h <;> rw [h] <;> rfl
  simp [State.run_append, State.run, hstep, Step.advance, rawEntries, hfinish, invalidOffsets]

/-- From there on everything is scanned as if the content began there. -/
theorem EndsClean.run_append (h : EndsClean front) (rest : List Char) :
    State.between.run 0 ((front ++ [' ']) ++ rest) =
      let moved := (State.between.run 0 rest).move (Text.byteLength (front ++ [' ']))
      ⟨rawEntries front ++ moved.entries, invalidOffsets front ++ moved.invalid, moved.last⟩ := by
  have hmove := State.run_move State.fits_between (Text.byteLength (front ++ [' '])) rest
  rw [Text.byteLength_nil, Nat.zero_add] at hmove
  rw [State.run_append, h.run_space, Nat.zero_add, ← hmove]
  rfl

theorem EndsClean.rawEntries_append (h : EndsClean front) (rest : List Char) :
    rawEntries ((front ++ [' ']) ++ rest) = rawEntries front ++
      (rawEntries rest).map (RawEntry.move (Text.byteLength (front ++ [' ']))) := by
  have hlength : Text.byteLength ((front ++ [' ']) ++ rest) =
      Text.byteLength rest + Text.byteLength (front ++ [' ']) := by
    rw [Text.byteLength_append, Nat.add_comm]
  rw [rawEntries, h.run_append, hlength]
  simp only [Trace.move, State.finish?_move, Option.toList_map, List.append_assoc]
  rw [← List.map_append]
  rfl

theorem EndsClean.invalidOffsets_append (h : EndsClean front) (rest : List Char) :
    invalidOffsets ((front ++ [' ']) ++ rest) = invalidOffsets front ++
      (invalidOffsets rest).map (· + Text.byteLength (front ++ [' '])) := by
  rw [invalidOffsets, h.run_append]
  rfl

end Clean

/-- **Concatenation.** Two contents joined by a space give what the first gives, then what the
second gives where it stands. Reported offsets saturate alike on both sides, so `base` needs no
bound. The contents need none because the offsets inside them are exact; a scanner that keeps
those within `Offset.limit` too does the same where the contents together with the space have at
most `limit` bytes. -/
theorem scan_joined {first : List Char} (h : EndsClean first) (second : List Char)
    (base : Offset) :
    (scan (first ++ ' ' :: second) base).entries =
        (scan first base).entries ++
          (scan second (base + Text.byteLength first + 1)).entries ∧
      (scan (first ++ ' ' :: second) base).problems =
        (scan first base).problems ++
          (scan second (base + Text.byteLength first + 1)).problems := by
  have hspace : base + Text.byteLength first + 1 =
      base + Text.byteLength (first ++ [' ']) := by
    rw [Nat.add_assoc, Text.byteLength_concat]
    rfl
  rw [hspace, List.append_cons]
  constructor
  · have hfirst : ∀ raw ∈ rawEntries first,
        Entry.ofRaw ((first ++ [' ']) ++ second) (Offset.shift base) raw =
          Entry.ofRaw first (Offset.shift base) raw := by
      intro raw hraw
      rw [List.append_assoc]
      exact ofRaw_append (fits_of_mem_rawEntries hraw) _ _
    have hsecond : ∀ raw ∈ rawEntries second,
        Entry.ofRaw ((first ++ [' ']) ++ second) (Offset.shift base)
            (raw.move (Text.byteLength (first ++ [' ']))) =
          Entry.ofRaw second (Offset.shift (base + Text.byteLength (first ++ [' ']))) raw :=
      fun raw hraw => ofRaw_move (fits_of_mem_rawEntries hraw) (first ++ [' ']) base
    simp only [scan, scanWith, h.rawEntries_append, List.map_append, List.map_map]
    congr 1
    · exact List.map_congr_left hfirst
    · exact List.map_congr_left hsecond
  · simp only [scan, scanWith, Problem.relocate_mk, h.invalidOffsets_append, List.map_append,
      List.map_map]
    congr 1
    apply List.map_congr_left
    intro offset _
    rw [Function.comp_apply, shift_add]

/-- The first content ends with a control character after its closing quote, so the space is
skipped. In the second one every rule is broken. -/
theorem scan_joined_brokenTags :
    EndsClean "id:\"\\\"\"\u0001".toList ∧
      (scan "id:\"\\\"\"\u0001".toList 9).entries =
        [⟨"id", "\\\"", 9, 13, 15, true, false, true⟩] ∧
      (scan "a b\"x\" :\"".toList 18).entries =
        [⟨"a b", "x", 18, 22, 23, true, false, false⟩, ⟨"", "", 25, 27, 27, true, false, true⟩] ∧
      (scan ("id:\"\\\"\"\u0001".toList ++ ' ' :: "a b\"x\" :\"".toList) 9).entries =
        [⟨"id", "\\\"", 9, 13, 15, true, false, true⟩,
          ⟨"a b", "x", 18, 22, 23, true, false, false⟩, ⟨"", "", 25, 27, 27, true, false, true⟩] ∧
      (scan ("id:\"\\\"\"\u0001".toList ++ ' ' :: "a b\"x\" :\"".toList) 9).problems =
        [⟨.invalidKeyChar, 16⟩, ⟨.invalidKeyChar, 19⟩] := by
  have hclean : EndsClean "id:\"\\\"\"\u0001".toList := by decide +kernel
  have hfirst : scan "id:\"\\\"\"\u0001".toList 9 =
      ⟨[⟨"id", "\\\"", 9, 13, 15, true, false, true⟩], [⟨.invalidKeyChar, 16⟩]⟩ := by
    decide +kernel
  have hsecond : scan "a b\"x\" :\"".toList 18 =
      ⟨[⟨"a b", "x", 18, 22, 23, true, false, false⟩, ⟨"", "", 25, 27, 27, true, false, true⟩],
        [⟨.invalidKeyChar, 19⟩]⟩ := by
    decide +kernel
  have hlength : Text.byteLength "id:\"\\\"\"\u0001".toList = 8 := by decide
  obtain ⟨hentries, hproblems⟩ := scan_joined hclean "a b\"x\" :\"".toList 9
  rw [hlength, hfirst, hsecond] at hentries hproblems
  exact ⟨hclean, congrArg ScanResult.entries hfirst, congrArg ScanResult.entries hsecond,
    hentries, hproblems⟩

end TagLint
