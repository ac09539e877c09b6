import TagLint.Proofs.Tag.Moves

/-!
# Runs of backslashes

Whether a quote closes a value depends on the run of backslashes just before it: a run of
odd length escapes the quote. The scanner keeps only a wrapping counter of that run, so
what ties the two together is their parity (`Tracks`), which every character of a value
preserves (`tracks_nextEscapes`).
-/

namespace TagLint

/-- The length of the run of backslashes at the end of a text. -/
def backslashesAtEnd (cs : List Char) : Nat := (cs.reverse.takeWhile (· == '\\')).length

@[simp] theorem backslashesAtEnd_nil : backslashesAtEnd [] = 0 := rfl

@[simp] theorem backslashesAtEnd_concat (cs : List Char) (c : Char) :
    backslashesAtEnd (cs ++ [c]) = if c = '\\' then backslashesAtEnd cs + 1 else 0 := by
  by_cases h : c = '\\' <;> simp [backslashesAtEnd, h]

/-- Every quote in a value is escaped: a run of backslashes of odd length ends just before
it. -/
def QuotesEscaped (value : List Char) : Prop :=
  ∀ before after, value = before ++ '"' :: after → backslashesAtEnd before % 2 = 1

theorem quotesEscaped_nil : QuotesEscaped [] := by
  intro before after h
  simp at h

/-- One more character keeps the quotes escaped unless it is a quote of its own after a run
of even length. -/
theorem quotesEscaped_concat {value : List Char} {c : Char} :
    QuotesEscaped (value ++ [c]) ↔
      QuotesEscaped value ∧ (c = '"' → backslashesAtEnd value % 2 = 1) := by
  constructor
  · intro h
    refine ⟨fun before after hvalue => h before (after ++ [c]) (by simp [hvalue]), ?_⟩
    rintro rfl
    exact h value [] rfl
  · rintro ⟨hvalue, hlast⟩ before after h
    rcases List.eq_nil_or_concat after with rfl | ⟨after, d, rfl⟩
    · obtain ⟨rfl, hc⟩ := List.append_inj' h rfl
      exact hlast (by simpa using hc)
    · have hsplit : value ++ [c] = (before ++ '"' :: after) ++ [d] := by simpa using h
      exact hvalue before after (List.append_inj' hsplit rfl).1

/-- A value read up to some point has its quotes escaped if it does at the end. -/
theorem QuotesEscaped.of_append {value rest : List Char} (h : QuotesEscaped (value ++ rest)) :
    QuotesEscaped value :=
  fun before after hvalue => h before (after ++ rest) (by simp [hvalue])

theorem quotesEscaped_iff_getElem? {value : List Char} :
    QuotesEscaped value ↔ ∀ i < value.length, value[i]? = some '"' →
      backslashesAtEnd (value.take i) % 2 = 1 := by
  constructor
  · intro h i hi hquote
    obtain ⟨_, hget⟩ := List.getElem?_eq_some_iff.1 hquote
    apply h (value.take i) (value.drop (i + 1))
    rw [← hget, ← List.drop_eq_getElem_cons hi, List.take_append_drop]
  · rintro h before after rfl
    simpa using h before.length (by simp) (by simp)

instance (value : List Char) : Decidable (QuotesEscaped value) :=
  decidable_of_iff _ quotesEscaped_iff_getElem?.symm

/-- The counter of the scanner has the parity of the run of backslashes before it. -/
def Tracks (escapes : UInt32) (value : List Char) : Prop :=
  escapes.toNat % 2 = backslashesAtEnd value % 2

theorem tracks_nil : Tracks 0 [] := rfl

/-- One more character of the value keeps the parity, even where the counter wraps. -/
theorem tracks_nextEscapes {escapes : UInt32} {value : List Char} (h : Tracks escapes value)
    (c : Char) : Tracks (nextEscapes escapes c) (value ++ [c]) := by
  unfold Tracks at h ⊢
  by_cases hc : c = '\\'
  · have hadd : (escapes + 1).toNat = (escapes.toNat + 1) % 2 ^ 32 := UInt32.toNat_add escapes 1
    simp only [nextEscapes, hc, if_true, backslashesAtEnd_concat, hadd]
    omega
  · simp [nextEscapes, hc]

/-- The scanner's test for an even run. -/
theorem Tracks.even_iff {escapes : UInt32} {value : List Char} (h : Tracks escapes value) :
    escapes % 2 = 0 ↔ backslashesAtEnd value % 2 = 0 := by
  unfold Tracks at h
  rw [← h, ← UInt32.toNat_inj, UInt32.toNat_mod]
  rfl

end TagLint
