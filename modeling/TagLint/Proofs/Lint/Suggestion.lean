import TagLint.Diagnostic.OfProblem
import TagLint.Proofs.Lint.Keys
import TagLint.Proofs.Lint.Origins
import TagLint.Proofs.Lint.Silencing

/-!
# Following a suggestion

The report of an unknown key suggests to allow it. One more value silences the keys that it lists
and nothing else (`check_concat_eq_silence`), so the suggestion works for every key but one that
holds a comma: such a key is read as a list of its pieces, and its report stays
(`check_after_suggestion`).
-/

namespace TagLint

/-- One more value takes away the reports of the keys that it lists. -/
theorem check_concat_eq_silence (literal : TagLiteral) (values : List String) (value : String) :
    literal.check (.ofValues (values ++ [value])) =
      silence (.ofValues [value]) (literal.check (.ofValues values)) := by
  rw [check_eq_silence (.ofValues (values ++ [value])), check_eq_silence (.ofValues values),
    silence, silence, silence, List.filter_filter]
  apply List.filter_congr
  intro problem _
  cases problem.kind with
  | unknownKey key =>
    have hmore : (AllowList.ofValues (values ++ [value])).contains key =
        ((AllowList.ofValues values).contains key ||
          (AllowList.ofValues [value]).contains key) := by
      rw [Bool.eq_iff_iff, Bool.or_eq_true, AllowList.contains_ofValues_append]
    simp [ProblemKind.allowedBy, hmore, Bool.and_comm]
  | _ => rfl

/-- A key without a comma, given as a value, takes away its own reports. -/
theorem silence_of_not_comma {key : String} (hne : key ≠ "") (h : ',' ∉ key.toList)
    (problems : List Problem) :
    silence (.ofValues [key]) problems = problems.filter (·.kind ≠ .unknownKey key) := by
  rw [silence]
  apply List.filter_congr
  intro problem _
  cases problem.kind with
  | unknownKey other =>
    have hother : (AllowList.ofValues [key]).contains other = decide (other = key) := by
      rw [Bool.eq_iff_iff, decide_eq_true_iff, AllowList.contains_ofValues]
      simp [listedKeys_of_not_comma hne h]
    simp [ProblemKind.allowedBy, hother]
  | _ => simp [ProblemKind.allowedBy]

/-- A key with a comma cannot be given as a value, or as part of one. -/
theorem mem_silence_of_comma {key : String} {offset : Offset} (h : ',' ∈ key.toList)
    (values : List String) {problems : List Problem} :
    ⟨.unknownKey key, offset⟩ ∈ silence (.ofValues values) problems ↔
      ⟨.unknownKey key, offset⟩ ∈ problems := by
  have hrefused : (AllowList.ofValues values).contains key = false :=
    Bool.eq_false_iff.2 fun hcontains => AllowList.not_comma_of_contains hcontains h
  simp [silence, ProblemKind.allowedBy, hrefused]

/-- **Suggestions.** Whoever follows the suggestion of an unknown key is rid of its reports, and of
no others, if and only if the key holds no comma. -/
theorem check_after_suggestion {literal : TagLiteral} {values : List String} {key : String}
    {offset : Offset} (h : ⟨.unknownKey key, offset⟩ ∈ literal.check (.ofValues values)) :
    (Problem.toDiagnostic ⟨.unknownKey key, offset⟩).suggestions =
        ["pass `--allow-key " ++ key ++ "` to accept it"] ∧
      ((∀ problem ∈ literal.check (.ofValues (values ++ [key])), problem.kind ≠ .unknownKey key) ↔
        ',' ∉ key.toList) ∧
      (',' ∉ key.toList → literal.check (.ofValues (values ++ [key])) =
        (literal.check (.ofValues values)).filter (·.kind ≠ .unknownKey key)) ∧
      (',' ∈ key.toList →
        ⟨.unknownKey key, offset⟩ ∈ literal.check (.ofValues (values ++ [key]))) := by
  obtain ⟨-, -, -, hne, -⟩ := TagLiteral.exists_key_of_mem_check h
  have hplain (hcomma : ',' ∉ key.toList) : literal.check (.ofValues (values ++ [key])) =
      (literal.check (.ofValues values)).filter (·.kind ≠ .unknownKey key) := by
    rw [check_concat_eq_silence, silence_of_not_comma hne hcomma]
  have hstays (hcomma : ',' ∈ key.toList) :
      ⟨.unknownKey key, offset⟩ ∈ literal.check (.ofValues (values ++ [key])) := by
    rw [check_concat_eq_silence, mem_silence_of_comma hcomma]
    exact h
  refine ⟨rfl, ⟨?_, ?_⟩, hplain, hstays⟩
  · intro hgone hcomma
    exact hgone _ (hstays hcomma) rfl
  · intro hcomma problem hproblem
    rw [hplain hcomma] at hproblem
    exact of_decide_eq_true (List.mem_filter.1 hproblem).2

/-- Two unknown keys, of which only the first can be allowed as suggested. -/
theorem check_after_suggestion_commaKey :
    TagLiteral.check (.ofValues ["db"]) ⟨"`json:\"a\" x,y:\"b\"`", 5⟩ =
        [⟨.unknownKey "json", 6⟩, ⟨.unknownKey "x,y", 15⟩] ∧
      TagLiteral.check (.ofValues ["db", "json"]) ⟨"`json:\"a\" x,y:\"b\"`", 5⟩ =
        [⟨.unknownKey "x,y", 15⟩] ∧
      (Problem.toDiagnostic ⟨.unknownKey "x,y", 15⟩).suggestions =
        ["pass `--allow-key x,y` to accept it"] ∧
      ⟨.unknownKey "x,y", 15⟩ ∈
        TagLiteral.check (.ofValues ["db", "x,y"]) ⟨"`json:\"a\" x,y:\"b\"`", 5⟩ := by
  have hcheck : TagLiteral.check (.ofValues ["db"]) ⟨"`json:\"a\" x,y:\"b\"`", 5⟩ =
      [⟨.unknownKey "json", 6⟩, ⟨.unknownKey "x,y", 15⟩] := by
    decide +kernel
  obtain ⟨-, -, hjson, -⟩ := check_after_suggestion (hcheck ▸ List.mem_cons_self)
  obtain ⟨hadvice, -, -, hstays⟩ :=
    check_after_suggestion (hcheck ▸ List.mem_cons_of_mem _ List.mem_cons_self)
  refine ⟨hcheck, ?_, hadvice, hstays (by decide)⟩
  have hplain := hjson (by decide)
  rw [hcheck] at hplain
  exact hplain

/-- A key of two pieces is suggested as a value, which lists the pieces and not the key. -/
theorem not_forall_check_after_suggestion :
    ¬ ∀ (literal : TagLiteral) (values : List String) (key : String) (offset : Offset),
      ⟨.unknownKey key, offset⟩ ∈ literal.check (.ofValues values) →
      (Problem.toDiagnostic ⟨.unknownKey key, offset⟩).suggestions =
        ["pass `--allow-key " ++ key ++ "` to accept it"] →
      ∀ problem ∈ literal.check (.ofValues (values ++ [key])), problem.kind ≠ .unknownKey key := by
  intro h
  have hbefore : ⟨.unknownKey "a,b", 1⟩ ∈ TagLiteral.check (.ofValues []) ⟨"`a,b:\"x\"`", 0⟩ := by
    decide +kernel
  have hafter : ⟨.unknownKey "a,b", 1⟩ ∈
      TagLiteral.check (.ofValues ["a,b"]) ⟨"`a,b:\"x\"`", 0⟩ := by
    decide +kernel
  exact h _ [] "a,b" 1 hbefore rfl _ hafter rfl

end TagLint
