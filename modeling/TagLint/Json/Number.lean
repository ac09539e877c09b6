import TagLint.Text.Numeral

/-!
# Numbers of JSON

A number is read as the characters that spell it: a sign, an integer part without leading
zeros, a fraction and an exponent, one reader after the other. What is read and what
follows it spell the text (`splits_number?`).
-/

namespace TagLint.Json

/-! ## Readers -/

/-- A reader takes some characters from the start of a text, if it finds what it looks for,
and gives them with the text that follows. -/
abbrev Reader := List Char → Option (List Char × List Char)

namespace Reader

/-- What two readers take one after the other. -/
def andThen (first second : Reader) : Reader := fun cs =>
  match first cs with
  | none => none
  | some (taken, rest) => (second rest).map fun (more, rest) => (taken ++ more, rest)

/-- What a reader finds, or nothing at all. -/
def orNothing (condition : Char → Bool) (reader : Reader) : Reader
  | [] => some ([], [])
  | c :: cs => if condition c then reader (c :: cs) else some ([], c :: cs)

/-- The first character, whatever it is. -/
def one : Reader
  | [] => none
  | c :: cs => some ([c], cs)

/-- Whether a reader gives back all of the text, in two parts. -/
def Splits (reader : Reader) : Prop :=
  ∀ ⦃cs taken rest : List Char⦄, reader cs = some (taken, rest) → taken ++ rest = cs

theorem Splits.andThen {first second : Reader} (hfirst : first.Splits) (hsecond : second.Splits) :
    (first.andThen second).Splits := by
  intro cs taken rest h
  unfold Reader.andThen at h
  split at h
  · simp at h
  · rename_i a r hread
    obtain ⟨⟨more, rest'⟩, hmore, heq⟩ := Option.map_eq_some_iff.1 h
    simp only [Prod.mk.injEq] at heq
    obtain ⟨rfl, rfl⟩ := heq
    rw [List.append_assoc, hsecond hmore, hfirst hread]

theorem Splits.orNothing {reader : Reader} (condition : Char → Bool) (h : reader.Splits) :
    (reader.orNothing condition).Splits := by
  intro cs taken rest hread
  unfold Reader.orNothing at hread
  split at hread
  · simp_all
  · split at hread
    · exact h hread
    · simp only [Option.some.injEq, Prod.mk.injEq] at hread
      obtain ⟨rfl, rfl⟩ := hread
      rfl

theorem splits_one : one.Splits := by
  intro cs taken rest h
  unfold one at h
  split at h
  · simp at h
  · simp only [Option.some.injEq, Prod.mk.injEq] at h
    obtain ⟨rfl, rfl⟩ := h
    rfl

end Reader

/-! ## The parts of a number -/

/-- One or more digits. -/
def digits? : Reader := fun cs =>
  if (cs.takeWhile Text.isDigit).isEmpty then none
  else some (cs.takeWhile Text.isDigit, cs.dropWhile Text.isDigit)

/-- The integer part of a number: a zero, or digits that do not start with one. -/
def integer? : Reader
  | '0' :: cs => some (['0'], cs)
  | cs => digits? cs

/-- The fraction of a number, if it has one. -/
def fraction? : Reader := (Reader.one.andThen digits?).orNothing (· == '.')

/-- The exponent of a number, if it has one. -/
def exponent? : Reader :=
  ((Reader.one.andThen (Reader.one.orNothing fun c => c == '+' || c == '-')).andThen
    digits?).orNothing fun c => c == 'e' || c == 'E'

/-- A number. -/
def number? : Reader :=
  (Reader.one.orNothing (· == '-')).andThen (integer?.andThen (fraction?.andThen exponent?))

theorem splits_digits? : Reader.Splits digits? := by
  intro cs taken rest h
  unfold digits? at h
  split at h
  · simp at h
  · simp only [Option.some.injEq, Prod.mk.injEq] at h
    obtain ⟨rfl, rfl⟩ := h
    exact List.takeWhile_append_dropWhile

theorem splits_integer? : Reader.Splits integer? := by
  intro cs taken rest h
  unfold integer? at h
  split at h
  · simp only [Option.some.injEq, Prod.mk.injEq] at h
    obtain ⟨rfl, rfl⟩ := h
    rfl
  · exact splits_digits? h

/-- A number and what follows it spell the text that was read. -/
theorem splits_number? : Reader.Splits number? :=
  (Reader.splits_one.orNothing _).andThen
    (splits_integer?.andThen
      (((Reader.splits_one.andThen splits_digits?).orNothing _).andThen
        (((Reader.splits_one.andThen (Reader.splits_one.orNothing _)).andThen
          splits_digits?).orNothing _)))

theorem ne_nil_of_integer? {cs taken rest : List Char} (h : integer? cs = some (taken, rest)) :
    taken ≠ [] := by
  unfold integer? at h
  split at h
  · simp only [Option.some.injEq, Prod.mk.injEq] at h
    simp [← h.1]
  · unfold digits? at h
    split at h
    · simp at h
    · rename_i hne
      simp only [Option.some.injEq, Prod.mk.injEq] at h
      simpa [← h.1] using hne

theorem ne_nil_of_number? {cs taken rest : List Char} (h : number? cs = some (taken, rest)) :
    taken ≠ [] := by
  unfold number? Reader.andThen at h
  split at h
  · simp at h
  · obtain ⟨⟨more, rest'⟩, hmore, heq⟩ := Option.map_eq_some_iff.1 h
    simp only [Prod.mk.injEq] at heq
    split at hmore
    · simp at hmore
    · rename_i hinteger
      obtain ⟨_, _, heq'⟩ := Option.map_eq_some_iff.1 hmore
      simp only [Prod.mk.injEq] at heq'
      simp [← heq.1, ← heq'.1, ne_nil_of_integer? hinteger]

end TagLint.Json
