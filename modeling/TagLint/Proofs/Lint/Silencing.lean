import TagLint.Proofs.Literal.Order

/-!
# What an allow-list silences

Validation reads the allow-list in one place, to ask whether the key of an entry is accepted,
and nothing else that it reports depends on the answer. So a check under any allow-list is the
check under the empty one without the reports of the keys that are accepted
(`check_eq_silence`), and a longer allow-list can only make a check shorter
(`check_of_subset`).
-/

namespace TagLint

/-- Every key that the first allow-list accepts is accepted by the second. -/
instance : HasSubset AllowList :=
  ⟨fun few many => ∀ key, few.contains key = true → many.contains key = true⟩

/-- The report of a key that the allow-list accepts. -/
def ProblemKind.allowedBy (allowed : AllowList) : ProblemKind → Bool
  | .unknownKey key => allowed.contains key
  | _ => false

/-- Leaves out the reports of accepted keys, and nothing else. -/
def silence (allowed : AllowList) (problems : List Problem) : List Problem :=
  problems.filter fun problem => !problem.kind.allowedBy allowed

section Silence

variable (allowed : AllowList)

@[simp] theorem silence_append (first second : List Problem) :
    silence allowed (first ++ second) = silence allowed first ++ silence allowed second :=
  List.filter_append _ _

theorem silence_flatMap {α : Type} (items : List α) (problems : α → List Problem) :
    silence allowed (items.flatMap problems) =
      items.flatMap fun item => silence allowed (problems item) := by
  simp only [silence, List.filter_flatMap]

/-- Reports of other kinds stay. -/
theorem silence_eq_self {problems : List Problem}
    (h : ∀ problem ∈ problems, problem.kind.allowedBy allowed = false) :
    silence allowed problems = problems := by
  rw [silence, List.filter_eq_self]
  intro problem hproblem
  rw [h problem hproblem]
  rfl

/-- What a shorter allow-list silences is silenced by a longer one. -/
theorem silence_silence {few many : AllowList} (h : few ⊆ many) (problems : List Problem) :
    silence many (silence few problems) = silence many problems := by
  have hkind (kind : ProblemKind) (hfew : kind.allowedBy few = true) :
      kind.allowedBy many = true := by
    cases kind with
    | unknownKey key => exact h key hfew
    | _ => cases hfew
  rw [silence, silence, silence, List.filter_filter]
  apply List.filter_congr
  intro problem _
  cases hfew : problem.kind.allowedBy few with
  | false => simp
  | true => simp [hkind problem.kind hfew]

/-! ## Entries -/

theorem keyProblems_eq_silence (entry : Entry) :
    entry.keyProblems allowed = silence allowed (entry.keyProblems .empty) := by
  have hunknown : AllowList.empty.contains entry.key = false := rfl
  by_cases hempty : entry.key.isEmpty = true
  · simp [Entry.keyProblems, hempty, silence, ProblemKind.allowedBy]
  · cases hkey : allowed.contains entry.key <;>
      simp [Entry.keyProblems, hempty, hunknown, hkey, silence, ProblemKind.allowedBy]

/-- No problem of a value is the report of a key. -/
theorem silence_valueProblems (entry : Entry) :
    silence allowed entry.valueProblems = entry.valueProblems := by
  have hquote : silence allowed entry.quoteProblems = entry.quoteProblems := by
    unfold Entry.quoteProblems
    split
    · rfl
    · split <;> rfl
  have hseparator : silence allowed entry.separatorProblems = entry.separatorProblems := by
    unfold Entry.separatorProblems
    split <;> rfl
  unfold Entry.valueProblems
  split
  · rfl
  · rw [silence_append, hquote, hseparator]

theorem problems_eq_silence (entry : Entry) :
    entry.problems allowed = silence allowed (entry.problems .empty) := by
  rw [Entry.problems, Entry.problems, silence_append, ← keyProblems_eq_silence,
    silence_valueProblems]

theorem validate_eq_silence (entries : List Entry) :
    validate allowed entries = silence allowed (validate .empty entries) := by
  rw [validate, validate, silence_flatMap]
  congr 1
  funext entry
  exact problems_eq_silence allowed entry

/-! ## Literals -/

/-- Scanning reports no keys. -/
theorem silence_problems_scan (literal : TagLiteral) :
    silence allowed literal.scan.problems = literal.scan.problems := by
  by_cases hempty : literal.text = ""
  · simp [TagLiteral.scan, hempty, silence]
  apply silence_eq_self
  intro problem hproblem
  rw [TagLiteral.problems_scan hempty] at hproblem
  rcases List.mem_append.1 hproblem with hmalformed | hinvalid
  · rcases literal.malformed_cases with hnone | hone
    · rw [hnone] at hmalformed
      cases hmalformed
    · rw [hone, List.mem_singleton] at hmalformed
      rw [hmalformed]
      rfl
  · obtain ⟨offset, -, rfl⟩ := List.mem_map.1 hinvalid
    rfl

theorem check_eq_silence (literal : TagLiteral) :
    literal.check allowed = silence allowed (literal.check .empty) := by
  rw [TagLiteral.check, TagLiteral.check, ScanResult.check, ScanResult.check, silence_append,
    silence_problems_scan, validate_eq_silence]

end Silence

/-- **Monotonicity.** A longer allow-list takes away the reports of the keys that it accepts, and
leaves everything else as it was. Reports of empty keys are the same under every allow-list. -/
theorem check_of_subset (literal : TagLiteral) :
    (∀ few many : AllowList, few ⊆ many →
      literal.check many = silence many (literal.check few)) ∧
      ∀ one other : AllowList,
        (literal.check one).filter (·.kind = .emptyKey) =
          (literal.check other).filter (·.kind = .emptyKey) := by
  constructor
  · intro few many h
    rw [check_eq_silence many, check_eq_silence few, silence_silence h]
  · have hempty (allowed : AllowList) : (literal.check allowed).filter (·.kind = .emptyKey) =
        (literal.check .empty).filter (·.kind = .emptyKey) := by
      rw [check_eq_silence allowed, silence, List.filter_filter]
      apply List.filter_congr
      intro problem _
      -- An empty key is not looked up, so no allow-list silences its report.
      cases problem.kind <;> simp [ProblemKind.allowedBy]
    intro one other
    rw [hempty one, hempty other]

/-- Two unknown keys, of which the longer allow-list accepts one, and a colon without a key. -/
theorem check_of_subset_threePairs :
    AllowList.ofValues ["db"] ⊆ AllowList.ofValues ["db,json"] ∧
      TagLiteral.check (.ofValues ["db"]) ⟨"`json:\"a\" xml:\"b\" :\"c\"`", 5⟩ =
        [⟨.unknownKey "json", 6⟩, ⟨.unknownKey "xml", 15⟩, ⟨.emptyKey, 23⟩] ∧
      TagLiteral.check (.ofValues ["db,json"]) ⟨"`json:\"a\" xml:\"b\" :\"c\"`", 5⟩ =
        [⟨.unknownKey "xml", 15⟩, ⟨.emptyKey, 23⟩] := by
  have hsubset : AllowList.ofValues ["db"] ⊆ AllowList.ofValues ["db,json"] := by
    have hdb : AllowList.ofValues ["db"] = ⟨["db"]⟩ := by decide +kernel
    have hboth : AllowList.ofValues ["db,json"] = ⟨["db", "json"]⟩ := by decide +kernel
    rw [hdb, hboth]
    intro key hkey
    have hmem : key ∈ ["db"] := List.contains_iff_mem.1 hkey
    exact List.contains_iff_mem.2 (List.mem_append_left ["json"] hmem)
  have hfew : TagLiteral.check (.ofValues ["db"]) ⟨"`json:\"a\" xml:\"b\" :\"c\"`", 5⟩ =
      [⟨.unknownKey "json", 6⟩, ⟨.unknownKey "xml", 15⟩, ⟨.emptyKey, 23⟩] := by
    decide +kernel
  have hmany := (check_of_subset ⟨"`json:\"a\" xml:\"b\" :\"c\"`", 5⟩).1 _ _ hsubset
  refine ⟨hsubset, hfew, ?_⟩
  rw [hmany, hfew]
  decide +kernel

end TagLint
