import TagLint.Proofs.Tag.Accounting

/-!
# One entry for each pair

A pair begins where the scanner leaves the state between pairs, with the first character of a key
or with a colon that has no key before it. Whatever follows, malformed or cut off by the end of
the content, each such beginning gives exactly one entry.

What carries this is a balance kept by every step (`entries_step`): a beginning is either that of
the entry under way, held by the state, or it has been handed out with a finished entry. At the
end of the content nothing is held back.
-/

namespace TagLint

namespace State

/-- Whether the scanner stands just after a colon. -/
def afterColon : State → Bool
  | .separated _ => true
  | _ => false

/-- A pair begins: the scanner leaves the state between pairs for a key or for what follows a
colon. -/
def Begins (state next : State) : Prop :=
  state = .between ∧ (next.inKey = true ∨ next.afterColon = true)

instance (state next : State) : Decidable (state.Begins next) :=
  inferInstanceAs (Decidable (_ ∧ _))

theorem not_begins_self (state : State) : ¬ state.Begins state := by
  rintro ⟨rfl, hkey | hcolon⟩
  · cases hkey
  · cases hcolon

/-- The offsets at which pairs begin in a stretch of content that starts at `offset`. -/
def pairStarts (offset : Offset) (state : State) : List Char → List Offset
  | [] => []
  | c :: cs =>
    let next := (state.step offset c).next
    (if state.Begins next then [offset] else []) ++ next.pairStarts (offset + c.utf8Size) cs

/-- Where the entry under way began, if there is one. -/
def openStart : State → List Offset
  | .between => []
  | .closed => []
  | .key start => [start]
  | .separated pair => [pair.key.start]
  | .opened pair => [pair.key.start]
  | .value pair _ _ _ => [pair.key.start]

theorem map_start_finish? (stop : Offset) (state : State) :
    (state.finish? stop).toList.map (·.key.start) = state.openStart := by
  cases state <;> rfl

/-- **Step.** What was under way is handed out or still under way, and so is what begins. -/
theorem entries_step (offset : Offset) (c : Char) (state : State) :
    (state.step offset c).entries.map (·.key.start) ++ (state.step offset c).next.openStart =
      state.openStart ++ if state.Begins (state.step offset c).next then [offset] else [] := by
  have hmove := step_moves offset c state
  generalize state.step offset c = result at hmove
  cases hmove with
  | control => simp [not_begins_self]
  | strayQuote | keySpace => simp [not_begins_self]
  | emptyKey | keyStart => simp [Begins, inKey, afterColon, openStart, Span.point]
  | _ => simp [Begins, inKey, afterColon, openStart, Pending.close]

/-- **Run.** The entries of a stretch are the one under way and one for each pair that begins. -/
theorem map_start_entriesFrom (offset : Offset) (state : State) (cs : List Char) :
    (state.entriesFrom offset cs).map (·.key.start) =
      state.openStart ++ state.pairStarts offset cs := by
  induction cs generalizing offset state with
  | nil => simp [entriesFrom, pairStarts, map_start_finish?]
  | cons c cs ih =>
    rw [entriesFrom, pairStarts, List.map_append, ih, ← List.append_assoc, entries_step,
      List.append_assoc]

theorem mem_pairStarts_iff {offset position : Offset} {state : State} {cs : List Char} :
    position ∈ state.pairStarts offset cs ↔
      ∃ before c after, cs = before ++ c :: after ∧ position = offset + Text.byteLength before ∧
        (state.run offset before).last.Begins
          ((state.run offset before).last.step (offset + Text.byteLength before) c).next := by
  induction cs generalizing offset state with
  | nil => simp [pairStarts]
  | cons c cs ih =>
    rw [pairStarts, List.mem_append, ih]
    constructor
    · rintro (hfirst | ⟨before, d, after, rfl, hposition, hbegins⟩)
      · split at hfirst
        · next hbegins =>
          obtain rfl := List.mem_singleton.1 hfirst
          exact ⟨[], c, cs, rfl, rfl, hbegins⟩
        · cases hfirst
      · rw [Nat.add_assoc, ← Text.byteLength_cons] at hposition hbegins
        exact ⟨c :: before, d, after, rfl, hposition, hbegins⟩
    · rintro ⟨before, d, after, hsplit, hposition, hbegins⟩
      cases before with
      | nil =>
        obtain ⟨rfl, rfl⟩ := List.cons.inj hsplit
        have hfirst : state.Begins (state.step offset c).next := hbegins
        left
        rw [if_pos hfirst]
        exact List.mem_singleton.2 hposition
      | cons first before =>
        obtain ⟨rfl, rfl⟩ := List.cons.inj hsplit
        rw [Text.byteLength_cons, ← Nat.add_assoc] at hposition hbegins
        exact .inr ⟨before, d, after, rfl, hposition, hbegins⟩

end State

/-- The offsets at which pairs begin in a content. -/
def pairStarts (content : List Char) : List Offset := State.between.pairStarts 0 content

theorem map_start_rawEntries (content : List Char) :
    (rawEntries content).map (·.key.start) = pairStarts content := by
  rw [State.rawEntries_eq_entriesFrom, State.map_start_entriesFrom]
  rfl

theorem pairStarts_ascending (content : List Char) : (pairStarts content).Pairwise (· < ·) := by
  rw [← map_start_rawEntries, List.pairwise_map]
  refine (rawEntries_inOrder content).imp_of_mem ?_
  intro first second hfirst _ horder
  have hfits := fits_of_mem_rawEntries hfirst
  have hkey := Nat.le_trans hfits.key.start_le hfits.key_le_value
  exact Nat.lt_of_le_of_lt (Nat.le_trans hkey hfits.value_le) horder

/-- **Each pair once.** The entries stand where pairs begin, one for each beginning and in the
order of the content. The beginnings are the offsets of the characters with which the scanner
leaves the state between pairs for a key or for what follows a colon. -/
theorem scan_each_pair_once {content : List Char} {base : Offset}
    (hfits : base + Text.byteLength content ≤ Offset.limit) :
    (scan content base).entries.map Entry.keyOffset = (pairStarts content).map (base + ·) ∧
      (pairStarts content).Pairwise (· < ·) ∧
      ∀ position, position ∈ pairStarts content ↔
        ∃ before c after, content = before ++ c :: after ∧ position = Text.byteLength before ∧
          (stateAfter before).Begins (stepAt before c).next := by
  refine ⟨?_, pairStarts_ascending content, ?_⟩
  · rw [scan_of_fits hfits, List.map_map, ← map_start_rawEntries, List.map_map]
    rfl
  · intro position
    rw [pairStarts, State.mem_pairStarts_iff]
    simp only [Nat.zero_add]
    rfl

/-- A stray quote, a colon without a key, a key with a space, a pair without a colon, and a key that
the content ends in. -/
theorem scan_each_pair_once_brokenPairs :
    3 + Text.byteLength "\": a b:\"x\" c\"\" d".toList ≤ Offset.limit ∧
      (scan "\": a b:\"x\" c\"\" d".toList 3).entries.map Entry.keyOffset = [4, 6, 14, 18] ∧
      pairStarts "\": a b:\"x\" c\"\" d".toList = [1, 3, 11, 15] := by
  have hstarts : pairStarts "\": a b:\"x\" c\"\" d".toList = [1, 3, 11, 15] := by decide +kernel
  refine ⟨by decide, ?_, hstarts⟩
  rw [(scan_each_pair_once (by decide)).1, hstarts]
  rfl

end TagLint
