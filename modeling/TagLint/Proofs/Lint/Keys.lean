import TagLint.Lint.AllowList

/-!
# The keys that values list

A value lists its non-empty pieces between commas, and an allow-list accepts exactly what its
values list (`contains_ofValues`). So a key can be accepted only if it holds no comma
(`not_comma_of_contains`), and a value without a comma lists nothing but itself
(`listedKeys_of_not_comma`).
-/

namespace TagLint

/-- Splitting at commas is the splitting of lists in general. -/
theorem splitAtCommas_eq_splitOn (cs : List Char) : splitAtCommas cs = cs.splitOn ',' := by
  induction cs with
  | nil => rfl
  | cons c cs ih =>
    have hne := List.splitOn_ne_nil ',' cs
    rw [splitAtCommas, List.splitOn_cons_eq_if_modifyHead, ih]
    simp only [beq_iff_eq]
    split
    · rfl
    · cases hpieces : cs.splitOn ',' with
      | nil => exact absurd hpieces hne
      | cons piece pieces => rfl

/-- No piece holds a comma. -/
theorem not_comma_of_mem_splitAtCommas {cs piece : List Char} (h : piece ∈ splitAtCommas cs) :
    ',' ∉ piece := by
  induction cs generalizing piece with
  | nil =>
    obtain rfl := List.mem_singleton.1 h
    exact List.not_mem_nil
  | cons c cs ih =>
    rw [splitAtCommas] at h
    split at h
    · rcases List.mem_cons.1 h with rfl | hlater
      · exact List.not_mem_nil
      · exact ih hlater
    · next hc =>
      split at h
      · obtain rfl := List.mem_singleton.1 h
        exact mt List.mem_singleton.1 (Ne.symm hc)
      · next first pieces hpieces =>
        rw [hpieces] at ih
        rcases List.mem_cons.1 h with rfl | hlater
        · rw [List.mem_cons, not_or]
          exact ⟨Ne.symm hc, ih List.mem_cons_self⟩
        · exact ih (List.mem_cons_of_mem first hlater)

/-! ## Listed keys -/

theorem mem_listedKeys {value key : String} :
    key ∈ listedKeys value ↔ key ≠ "" ∧ key.toList ∈ splitAtCommas value.toList := by
  simp only [listedKeys, List.mem_map, List.mem_filter]
  constructor
  · rintro ⟨piece, ⟨hpiece, hne⟩, rfl⟩
    refine ⟨?_, by rwa [String.toList_ofList]⟩
    intro hempty
    have hnil : piece = [] := by simpa using congrArg String.toList hempty
    simp [hnil] at hne
  · rintro ⟨hne, hpiece⟩
    exact ⟨key.toList, ⟨hpiece, by simpa using hne⟩, String.ofList_toList⟩

/-- A key that holds no comma is all that it lists as a value. -/
theorem listedKeys_of_not_comma {key : String} (hne : key ≠ "") (h : ',' ∉ key.toList) :
    listedKeys key = [key] := by
  have hpiece : key.toList.isEmpty = false := by simpa using hne
  rw [listedKeys, splitAtCommas_eq_splitOn, List.splitOn_eq_singleton h]
  simp [hpiece]

theorem not_comma_of_mem_listedKeys {value key : String} (h : key ∈ listedKeys value) :
    ',' ∉ key.toList :=
  not_comma_of_mem_splitAtCommas (mem_listedKeys.1 h).2

/-! ## Accepted keys -/

namespace AllowList

variable {allowed : AllowList} {key : String}

theorem contains_addValue {value : String} :
    (allowed.addValue value).contains key = true ↔
      key ∈ listedKeys value ∨ allowed.contains key = true := by
  unfold addValue
  induction listedKeys value generalizing allowed with
  | nil => simp
  | cons first rest ih =>
    rw [List.foldl_cons, ih, contains_insert, Bool.or_eq_true, beq_iff_eq, List.mem_cons]
    constructor
    · rintro (hrest | rfl | hallowed)
      · exact .inl (.inr hrest)
      · exact .inl (.inl rfl)
      · exact .inr hallowed
    · rintro ((rfl | hrest) | hallowed)
      · exact .inr (.inl rfl)
      · exact .inl hrest
      · exact .inr (.inr hallowed)

theorem contains_addValues {values : List String} :
    (allowed.addValues values).contains key = true ↔
      (∃ value ∈ values, key ∈ listedKeys value) ∨ allowed.contains key = true := by
  unfold addValues
  induction values generalizing allowed with
  | nil => simp
  | cons value values ih =>
    rw [List.foldl_cons, ih, contains_addValue, or_left_comm, ← or_assoc]
    simp only [List.mem_cons, or_and_right, exists_or, exists_eq_left]

/-- A key is accepted if and only if some value lists it. -/
theorem contains_ofValues {values : List String} :
    (ofValues values).contains key = true ↔ ∃ value ∈ values, key ∈ listedKeys value := by
  rw [ofValues, contains_addValues]
  exact or_iff_left Bool.false_ne_true

/-- No value can list a key that holds a comma. -/
theorem not_comma_of_contains {values : List String} (h : (ofValues values).contains key = true) :
    ',' ∉ key.toList := by
  obtain ⟨value, -, hlisted⟩ := contains_ofValues.1 h
  exact not_comma_of_mem_listedKeys hlisted

/-- Values taken together accept what some of them accept. -/
theorem contains_ofValues_append {first second : List String} :
    (ofValues (first ++ second)).contains key = true ↔
      (ofValues first).contains key = true ∨ (ofValues second).contains key = true := by
  simp only [contains_ofValues, List.mem_append, or_and_right, exists_or]

end AllowList

end TagLint
