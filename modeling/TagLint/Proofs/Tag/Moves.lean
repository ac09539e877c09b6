import TagLint.Tag.Scan

/-!
# The moves of the scanner

`State.Moves` lists everything that one character can do to the scanner, one constructor a
row of the transition table, with the condition under which the row applies. `step_moves`
says that the table is complete, so a fact about single steps is a case split over the
rows and never unfolds the step itself.

A whole scan is seen as one recursion over the content, `State.entriesFrom`, which hands
out the finished entries from left to right and at last the one still open.
-/

namespace TagLint

/-- A character that a key may hold. -/
def isKeyChar (c : Char) : Bool := !Text.isControl c && c != ' ' && c != ':' && c != '"'

theorem isKeyChar_iff {c : Char} :
    isKeyChar c = true ↔ Text.isControl c = false ∧ c ≠ ' ' ∧ c ≠ ':' ∧ c ≠ '"' := by
  simp [isKeyChar, and_assoc]

/-- The length of the run of backslashes after one more character of a value. -/
def nextEscapes (escapes : UInt32) (c : Char) : UInt32 := if c = '\\' then escapes + 1 else 0

namespace Step

/-- The entry that a step finishes, if any. -/
def entries (step : Step) : List RawEntry := step.entry?.toList

theorem entries_cases (step : Step) : step.entries = [] ∨ ∃ raw, step.entries = [raw] := by
  unfold entries
  cases step.entry? with
  | none => exact .inl rfl
  | some raw => exact .inr ⟨raw, rfl⟩

variable (state : State) (entry : RawEntry)

@[simp] theorem next_advance : (advance state).next = state := rfl

@[simp] theorem entries_advance : (advance state).entries = [] := rfl

@[simp] theorem invalid_advance : (advance state).invalid = false := rfl

@[simp] theorem next_finish : (finish state entry).next = state := rfl

@[simp] theorem entries_finish : (finish state entry).entries = [entry] := rfl

@[simp] theorem invalid_finish : (finish state entry).invalid = false := rfl

@[simp] theorem next_reject : (reject state).next = state := rfl

@[simp] theorem entries_reject : (reject state).entries = [] := rfl

@[simp] theorem invalid_reject : (reject state).invalid = true := rfl

end Step

namespace State

/-- The rows of the transition table. -/
inductive Moves (offset : Offset) (c : Char) : State → Step → Prop
  | control {state : State} : Text.isControl c = true → state.inValue = false →
      Moves offset c state (.reject state)
  | space : c = ' ' → Moves offset c .between (.advance .between)
  | emptyKey : c = ':' → Moves offset c .between (.advance (.separated ⟨.point offset, true⟩))
  | strayQuote : c = '"' → Moves offset c .between (.reject .between)
  | keyStart : isKeyChar c = true → Moves offset c .between (.advance (.key offset))
  | keySpace {start : Offset} : c = ' ' → Moves offset c (.key start) (.reject (.key start))
  | keyMore {start : Offset} : isKeyChar c = true →
      Moves offset c (.key start) (.advance (.key start))
  | keyColon {start : Offset} : c = ':' →
      Moves offset c (.key start) (.advance (.separated ⟨⟨start, offset⟩, true⟩))
  | keyQuote {start : Offset} : c = '"' →
      Moves offset c (.key start) (.advance (.opened ⟨⟨start, offset⟩, false⟩))
  | blankValue {pair : Pending} : c = ' ' →
      Moves offset c (.separated pair)
        (.finish .between (pair.close (.point (offset - 1)) false false))
  | quoteOpens {pair : Pending} : c = '"' →
      Moves offset c (.separated pair) (.advance (.opened pair))
  | bareStart {pair : Pending} : Text.isControl c = false → c ≠ ' ' → c ≠ '"' →
      Moves offset c (.separated pair)
        (.advance (.value pair offset false (nextEscapes 0 c)))
  | quotesMeet {pair : Pending} : c = '"' →
      Moves offset c (.opened pair)
        (.finish .closed (pair.close (.point (offset - 1)) true false))
  | quotedStart {pair : Pending} : Text.isControl c = false → c ≠ '"' →
      Moves offset c (.opened pair) (.advance (.value pair offset true (nextEscapes 0 c)))
  | quoteCloses {pair : Pending} {start : Offset} {escapes : UInt32} : c = '"' →
      escapes % 2 = 0 →
      Moves offset c (.value pair start true escapes)
        (.finish .closed (pair.close ⟨start, offset⟩ true false))
  | bareEnds {pair : Pending} {start : Offset} {escapes : UInt32} : c = ' ' →
      Moves offset c (.value pair start false escapes)
        (.finish .between (pair.close ⟨start, offset⟩ false false))
  | valueMore {pair : Pending} {start : Offset} {quoted : Bool} {escapes : UInt32} :
      (quoted = true → c = '"' → escapes % 2 ≠ 0) → (quoted = false → c ≠ ' ') →
      Moves offset c (.value pair start quoted escapes)
        (.advance (.value pair start quoted (nextEscapes escapes c)))
  | swallow : Text.isControl c = false → Moves offset c .closed (.advance .between)

theorem step_of_control {offset : Offset} {c : Char} {state : State}
    (hc : Text.isControl c = true) (hstate : state.inValue = false) :
    state.step offset c = .reject state := by
  simp [step, hc, hstate]

theorem step_of_not_control {offset : Offset} {c : Char} (hc : Text.isControl c = false)
    (state : State) : state.step offset c = state.advance offset c := by
  simp [step, hc]

/-- Inside a value a character goes on with it, closes its quote, or ends it with a space. -/
theorem value_moves (offset : Offset) (c : Char) (pair : Pending) (start : Offset)
    (quoted : Bool) (escapes : UInt32) :
    Moves offset c (.value pair start quoted escapes)
      ((State.value pair start quoted escapes).step offset c) := by
  have hstep : (State.value pair start quoted escapes).step offset c =
      (State.value pair start quoted escapes).advance offset c := by
    simp [step, inValue]
  rw [hstep]
  by_cases hback : c = '\\'
  · have hmove := @Moves.valueMore offset c pair start quoted escapes
      (fun _ hquote => by simp [hback] at hquote) (fun _ => by simp [hback])
    simpa [advance, nextEscapes, hback] using hmove
  · cases quoted with
    | true =>
      by_cases hclose : c = '"' ∧ escapes % 2 = 0
      · simpa [advance, hclose.1, hclose.2] using
          @Moves.quoteCloses offset c pair start escapes hclose.1 hclose.2
      · have hmove := @Moves.valueMore offset c pair start true escapes
          (fun _ hquote heven => hclose ⟨hquote, heven⟩) (fun h => by simp at h)
        simpa [advance, nextEscapes, hback, hclose] using hmove
    | false =>
      by_cases hspace : c = ' '
      · simpa [advance, hspace] using @Moves.bareEnds offset c pair start escapes hspace
      · have hmove := @Moves.valueMore offset c pair start false escapes
          (fun h => by simp at h) (fun _ => hspace)
        simpa [advance, nextEscapes, hback, hspace] using hmove

/-- The table is complete: every step is one of its rows. -/
theorem step_moves (offset : Offset) (c : Char) (state : State) :
    Moves offset c state (state.step offset c) := by
  by_cases hvalue : state.inValue = true
  · cases state with
    | value pair start quoted escapes => exact value_moves offset c pair start quoted escapes
    | _ => simp [inValue] at hvalue
  · have hstate : state.inValue = false := by simpa using hvalue
    cases hc : Text.isControl c with
    | true =>
      rw [step_of_control hc hstate]
      exact .control hc hstate
    | false =>
      rw [step_of_not_control hc]
      cases state with
      | value => simp [inValue] at hstate
      | between =>
        simp only [advance]
        split
        · next h => exact .space h
        · split
          · next h => exact .emptyKey h
          · split
            · next h => exact .strayQuote h
            · next hspace hcolon hquote =>
              exact .keyStart (isKeyChar_iff.2 ⟨hc, hspace, hcolon, hquote⟩)
      | key start =>
        simp only [advance]
        split
        · next h => exact .keyColon h
        · split
          · next h => exact .keyQuote h
          · split
            · next h => exact .keySpace h
            · next hcolon hquote hspace =>
              exact .keyMore (isKeyChar_iff.2 ⟨hc, hspace, hcolon, hquote⟩)
      | separated pair =>
        simp only [advance]
        split
        · next h => exact .blankValue h
        · split
          · next h => exact .quoteOpens h
          · next hspace hquote => exact .bareStart hc hspace hquote
      | opened pair =>
        simp only [advance]
        split
        · next h => exact .quotesMeet h
        · next hquote => exact .quotedStart hc hquote
      | closed => exact .swallow hc

/-! ## Whole scans -/

/-- The entries that the rest of a content finishes, the one open at its end included. -/
def entriesFrom (offset : Offset) (state : State) : List Char → List RawEntry
  | [] => (state.finish? offset).toList
  | c :: cs =>
    let step := state.step offset c
    step.entries ++ step.next.entriesFrom (offset + c.utf8Size) cs

/-- The entries of a run, then the entry open at its end. -/
theorem entriesFrom_eq_run (offset : Offset) (state : State) (cs : List Char) :
    state.entriesFrom offset cs = (state.run offset cs).entries ++
      ((state.run offset cs).last.finish? (offset + Text.byteLength cs)).toList := by
  induction cs generalizing offset state with
  | nil => simp [entriesFrom, run]
  | cons c cs ih => simp [entriesFrom, Step.entries, run, ih, Nat.add_assoc]

theorem rawEntries_eq_entriesFrom (content : List Char) :
    rawEntries content = State.between.entriesFrom 0 content := by
  rw [entriesFrom_eq_run, Nat.zero_add]
  rfl

/-- The entries of two stretches are those that the first finishes and those from there on. -/
theorem entriesFrom_append (offset : Offset) (state : State) (cs ds : List Char) :
    state.entriesFrom offset (cs ++ ds) = (state.run offset cs).entries ++
      (state.run offset cs).last.entriesFrom (offset + Text.byteLength cs) ds := by
  rw [entriesFrom_eq_run, entriesFrom_eq_run, run_append]
  simp [Nat.add_assoc]

end State

end TagLint
