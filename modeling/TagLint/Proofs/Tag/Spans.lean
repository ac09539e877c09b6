import TagLint.Proofs.Tag.Moves
import TagLint.Proofs.Text.Cut

/-!
# Where the spans of entries lie

The invariant `State.Fits` says of the text read so far where the spans that a state
carries lie in it: a key or value under way reaches to the end of the text, and a finished
key lies before what follows it. Every step keeps it and finishes only entries that fit
(`Fits.step`), so every entry of a content fits the content (`fits_of_mem_rawEntries`) and
the entries follow each other (`entriesFrom_inOrder`).
-/

namespace TagLint

/-- The spans of an entry lie in a content, key before value. An empty value may lie
between boundaries; it is a point then. -/
structure RawEntry.Fits (content : List Char) (raw : RawEntry) : Prop where
  key : raw.key.Cuts content
  value : raw.value.Cuts content ∨ raw.value.start = raw.value.stop
  key_le_value : raw.key.stop ≤ raw.value.start
  inside : raw.value.stop ≤ Text.byteLength content

namespace RawEntry.Fits

theorem value_le {content : List Char} {raw : RawEntry} (h : raw.Fits content) :
    raw.value.start ≤ raw.value.stop := by
  rcases h.value with hcuts | hpoint
  · exact hcuts.start_le
  · exact Nat.le_of_eq hpoint

theorem append {content : List Char} {raw : RawEntry} (h : raw.Fits content)
    (rest : List Char) : raw.Fits (content ++ rest) := by
  refine ⟨h.key.append rest, h.value.imp_left (·.append rest), h.key_le_value, ?_⟩
  rw [Text.byteLength_append]
  exact Nat.le_add_right_of_le h.inside

end RawEntry.Fits

/-- The spans of a pair under way lie before the end of the text read so far. -/
def Pending.Fits (before : List Char) (pair : Pending) : Prop :=
  pair.key.Cuts before ∧ pair.key.stop < Text.byteLength before

namespace State

/-- Where the spans of a state lie in the text read so far. -/
def Fits (before : List Char) : State → Prop
  | .between => True
  | .closed => True
  | .key start => Span.Cuts ⟨start, Text.byteLength before⟩ before
  | .separated pair => pair.Fits before
  | .opened pair => pair.Fits before
  | .value pair start _ _ =>
    pair.key.Cuts before ∧ pair.key.stop ≤ start ∧
      Span.Cuts ⟨start, Text.byteLength before⟩ before

theorem fits_between : State.between.Fits [] := trivial

/-- Where the entry under way begins, or the next one can. -/
def origin (offset : Offset) : State → Offset
  | .between => offset
  | .closed => offset
  | .key start => start
  | .separated pair => pair.key.start
  | .opened pair => pair.key.start
  | .value pair _ _ _ => pair.key.start

end State

theorem Pending.Fits.concat {before : List Char} {pair : Pending} (h : pair.Fits before)
    (c : Char) : pair.Fits (before ++ [c]) := by
  refine ⟨h.1.append [c], Nat.lt_of_lt_of_le h.2 ?_⟩
  rw [Text.byteLength_append]
  exact Nat.le_add_right _ _

/-- A key that ends where the text does is behind the character that ends it. -/
theorem Pending.fits_of_cuts {before : List Char} {key : Span} (h : key.Cuts before)
    (hstop : key.stop = Text.byteLength before) (c : Char) (separated : Bool) :
    Pending.Fits (before ++ [c]) ⟨key, separated⟩ := by
  refine ⟨h.append [c], ?_⟩
  have hpos := c.utf8Size_pos
  simp only [Text.byteLength_append, Text.byteLength_cons, Text.byteLength_nil]
  lia

/-- A pair whose value turns out empty is reported one byte back, which is still behind its
key. -/
theorem Pending.Fits.close_point {before : List Char} {pair : Pending} (h : pair.Fits before)
    (quoted : Bool) :
    (pair.close (.point (Text.byteLength before - 1)) quoted false).Fits before := by
  obtain ⟨hkey, hstop⟩ := h
  refine ⟨hkey, .inr rfl, ?_, Nat.sub_le _ _⟩
  show pair.key.stop ≤ Text.byteLength before - 1
  exact Nat.le_sub_one_of_lt hstop

namespace State

theorem Fits.origin_le {before : List Char} {state : State} (h : state.Fits before) :
    state.origin (Text.byteLength before) ≤ Text.byteLength before := by
  cases state with
  | between => exact Nat.le_refl _
  | closed => exact Nat.le_refl _
  | key start => exact Span.Cuts.start_le h
  | separated pair => exact Nat.le_trans h.1.start_le (Nat.le_of_lt h.2)
  | opened pair => exact Nat.le_trans h.1.start_le (Nat.le_of_lt h.2)
  | value pair start quoted escapes =>
    obtain ⟨hkey, hstart, hvalue⟩ := h
    exact Nat.le_trans hkey.start_le (Nat.le_trans hstart hvalue.start_le)

/-- A character that changes nothing leaves the spans where they are. -/
theorem Fits.concat {before : List Char} {state : State} (h : state.Fits before) (c : Char) :
    state.Fits (before ++ [c]) := by
  cases state with
  | between => trivial
  | closed => trivial
  | key start => exact Span.Cuts.concat c h
  | separated pair => exact Pending.Fits.concat h c
  | opened pair => exact Pending.Fits.concat h c
  | value pair start quoted escapes =>
    obtain ⟨hkey, hstart, hvalue⟩ := h
    exact ⟨hkey.append [c], hstart, hvalue.concat c⟩

/-- A value that begins with the character just read. -/
theorem fits_startValue {before : List Char} {pair : Pending} (h : pair.Fits before) (c : Char)
    (quoted : Bool) (escapes : UInt32) :
    (State.value pair (Text.byteLength before) quoted escapes).Fits (before ++ [c]) :=
  ⟨h.1.append [c], Nat.le_of_lt h.2, (Span.Cuts.point before).concat c⟩

/-- What one step does to the spans: those of the next state fit, and a finished entry fits
the text before the character and began where the state did. -/
structure StepFits (before : List Char) (c : Char) (state : State) (step : Step) : Prop where
  next : step.next.Fits (before ++ [c])
  entry : ∀ raw ∈ step.entries, raw.Fits before ∧
    raw.key.start = state.origin (Text.byteLength before) ∧
    ∀ offset, step.next.origin offset = offset
  quiet : step.entries = [] → state.origin (Text.byteLength before) ≤
    step.next.origin (Text.byteLength (before ++ [c]))

theorem stepFits_advance {before : List Char} {c : Char} {state next : State}
    (hnext : next.Fits (before ++ [c]))
    (horigin : state.origin (Text.byteLength before) ≤
      next.origin (Text.byteLength (before ++ [c]))) :
    StepFits before c state (.advance next) :=
  ⟨hnext, by simp, fun _ => horigin⟩

theorem stepFits_finish {before : List Char} {c : Char} {state next : State} {raw : RawEntry}
    (hraw : raw.Fits before) (hstart : raw.key.start = state.origin (Text.byteLength before))
    (hnext : next = .between ∨ next = .closed) :
    StepFits before c state (.finish next raw) := by
  refine ⟨?_, ?_, by simp⟩
  · rcases hnext with rfl | rfl <;> trivial
  · intro other hother
    obtain rfl : other = raw := by simpa using hother
    refine ⟨hraw, hstart, ?_⟩
    intro offset
    rcases hnext with rfl | rfl <;> rfl

/-- **Step.** -/
theorem Fits.step {before : List Char} {state : State} (h : state.Fits before) (c : Char) :
    StepFits before c state (state.step (Text.byteLength before) c) := by
  have hmore := Nat.le_of_lt (Text.byteLength_lt_concat before c)
  have hmove := step_moves (Text.byteLength before) c state
  generalize state.step (Text.byteLength before) c = result at hmove
  cases hmove with
  | control =>
    refine ⟨h.concat c, by simp, fun _ => ?_⟩
    cases state <;> simp [origin]
  | space => exact stepFits_advance trivial hmore
  | emptyKey =>
    exact stepFits_advance (Pending.fits_of_cuts (Span.Cuts.point before) rfl c true)
      (Nat.le_refl _)
  | strayQuote => exact ⟨trivial, by simp, fun _ => hmore⟩
  | keyStart => exact stepFits_advance ((Span.Cuts.point before).concat c) (Nat.le_refl _)
  | keySpace => exact ⟨h.concat c, by simp, fun _ => Nat.le_refl _⟩
  | keyMore => exact stepFits_advance (h.concat c) (Nat.le_refl _)
  | keyColon => exact stepFits_advance (Pending.fits_of_cuts h rfl c true) (Nat.le_refl _)
  | keyQuote => exact stepFits_advance (Pending.fits_of_cuts h rfl c false) (Nat.le_refl _)
  | blankValue => exact stepFits_finish (Pending.Fits.close_point h false) rfl (.inl rfl)
  | quoteOpens => exact stepFits_advance (Pending.Fits.concat h c) (Nat.le_refl _)
  | bareStart => exact stepFits_advance (fits_startValue h c false _) (Nat.le_refl _)
  | quotesMeet => exact stepFits_finish (Pending.Fits.close_point h true) rfl (.inr rfl)
  | quotedStart => exact stepFits_advance (fits_startValue h c true _) (Nat.le_refl _)
  | quoteCloses =>
    obtain ⟨hkey, hstart, hvalue⟩ := h
    exact stepFits_finish ⟨hkey, .inl hvalue, hstart, Nat.le_refl _⟩ rfl (.inr rfl)
  | bareEnds =>
    obtain ⟨hkey, hstart, hvalue⟩ := h
    exact stepFits_finish ⟨hkey, .inl hvalue, hstart, Nat.le_refl _⟩ rfl (.inl rfl)
  | valueMore => exact stepFits_advance (h.concat c) (Nat.le_refl _)
  | swallow => exact stepFits_advance trivial hmore

/-- The entry still open at the end of a content fits it. -/
theorem Fits.finish {before : List Char} {state : State} (h : state.Fits before) :
    ∀ raw ∈ state.finish? (Text.byteLength before), raw.Fits before ∧
      raw.key.start = state.origin (Text.byteLength before) := by
  intro raw hraw
  cases state with
  | between => simp [finish?] at hraw
  | closed => simp [finish?] at hraw
  | key start =>
    obtain rfl := Option.some.inj hraw
    exact ⟨⟨h, .inr rfl, Nat.le_refl _, Nat.le_refl _⟩, rfl⟩
  | separated pair =>
    obtain rfl := Option.some.inj hraw
    exact ⟨⟨h.1, .inr rfl, Nat.le_of_lt h.2, Nat.le_refl _⟩, rfl⟩
  | opened pair =>
    obtain rfl := Option.some.inj hraw
    exact ⟨⟨h.1, .inr rfl, Nat.le_of_lt h.2, Nat.le_refl _⟩, rfl⟩
  | value pair start quoted escapes =>
    obtain rfl := Option.some.inj hraw
    obtain ⟨hkey, hstart, hvalue⟩ := h
    exact ⟨⟨hkey, .inl hvalue, hstart, Nat.le_refl _⟩, rfl⟩

/-! ## Whole contents -/

/-- The state after some more text fits what has been read by then. -/
theorem Fits.last {before : List Char} {state : State} (h : state.Fits before)
    (more : List Char) :
    (state.run (Text.byteLength before) more).last.Fits (before ++ more) := by
  induction more generalizing before state with
  | nil => simpa [run] using h
  | cons c more ih =>
    rw [List.append_cons, run, ← Text.byteLength_concat]
    exact ih (h.step c).next

/-- The entries follow each other, the first not before the state began. -/
theorem entriesFrom_inOrder {before : List Char} {state : State} (h : state.Fits before)
    (rest : List Char) :
    (∀ raw ∈ state.entriesFrom (Text.byteLength before) rest,
        state.origin (Text.byteLength before) ≤ raw.key.start) ∧
      (state.entriesFrom (Text.byteLength before) rest).Pairwise
        fun first second => first.value.stop < second.key.start := by
  induction rest generalizing before state with
  | nil =>
    rw [entriesFrom]
    constructor
    · intro raw hraw
      exact Nat.le_of_eq (h.finish raw (Option.mem_toList.1 hraw)).2.symm
    · cases state.finish? (Text.byteLength before) <;> simp
  | cons c rest ih =>
    have hmore := Text.byteLength_lt_concat before c
    obtain ⟨hnext, hentry, hquiet⟩ := h.step c
    obtain ⟨hlow, hpairs⟩ := ih hnext
    simp only [entriesFrom, ← Text.byteLength_concat]
    rcases (state.step (Text.byteLength before) c).entries_cases with hnone | ⟨raw, hone⟩
    · rw [hnone, List.nil_append]
      refine ⟨?_, hpairs⟩
      intro raw hraw
      exact Nat.le_trans (hquiet hnone) (hlow raw hraw)
    · -- After a finished entry nothing is under way, so the rest begins past it.
      obtain ⟨hfits, hstart, horigin⟩ := hentry raw (hone ▸ List.mem_singleton_self raw)
      simp only [horigin] at hlow
      simp only [hone, List.singleton_append, List.mem_cons, List.pairwise_cons,
        forall_eq_or_imp]
      refine ⟨⟨Nat.le_of_eq hstart.symm, ?_⟩, ?_, hpairs⟩
      · intro other hother
        exact Nat.le_trans h.origin_le (Nat.le_trans (Nat.le_of_lt hmore) (hlow other hother))
      · intro other hother
        exact Nat.lt_of_le_of_lt hfits.inside (Nat.lt_of_lt_of_le hmore (hlow other hother))

end State

/-- **Induction over a scan.** An invariant of the text read so far and the state, together
with what it makes of the entries that a step or the end of the content finishes. -/
theorem forall_mem_rawEntries {Inv : List Char → State → Prop}
    {Good : List Char → RawEntry → Prop} (init : Inv [] .between)
    (next : ∀ {before state} (c), Inv before state →
      Inv (before ++ [c]) (state.step (Text.byteLength before) c).next)
    (entry : ∀ {before state} (c rest), Inv before state →
      ∀ raw ∈ (state.step (Text.byteLength before) c).entries, Good (before ++ c :: rest) raw)
    (finish : ∀ {before state}, Inv before state →
      ∀ raw ∈ state.finish? (Text.byteLength before), Good before raw) (content : List Char) :
    ∀ raw ∈ rawEntries content, Good content raw := by
  have hrun : ∀ (rest before : List Char) (state : State), Inv before state →
      ∀ raw ∈ state.entriesFrom (Text.byteLength before) rest, Good (before ++ rest) raw := by
    intro rest
    induction rest with
    | nil =>
      intro before state hinv raw hraw
      rw [List.append_nil]
      exact finish hinv raw (Option.mem_toList.1 hraw)
    | cons c rest ih =>
      intro before state hinv raw hraw
      simp only [State.entriesFrom, ← Text.byteLength_concat, List.mem_append] at hraw
      rcases hraw with hraw | hraw
      · exact entry c rest hinv raw hraw
      · have hrest := ih _ _ (next c hinv) raw hraw
        rwa [List.append_assoc, List.singleton_append] at hrest
  rw [State.rawEntries_eq_entriesFrom]
  exact hrun content [] .between init

theorem fits_of_mem_rawEntries {content : List Char} {raw : RawEntry}
    (h : raw ∈ rawEntries content) : raw.Fits content := by
  refine @forall_mem_rawEntries (fun before state => state.Fits before)
    (fun content raw => raw.Fits content) State.fits_between ?next ?entry ?finish content raw h
  case next =>
    intro before state c hfits
    exact (hfits.step c).next
  case entry =>
    intro before state c rest hfits raw hraw
    exact ((hfits.step c).entry raw hraw).1.append (c :: rest)
  case finish =>
    intro before state hfits raw hraw
    exact (hfits.finish raw hraw).1

theorem rawEntries_inOrder (content : List Char) :
    (rawEntries content).Pairwise fun first second => first.value.stop < second.key.start := by
  rw [State.rawEntries_eq_entriesFrom]
  exact (State.entriesFrom_inOrder State.fits_between content).2

end TagLint
