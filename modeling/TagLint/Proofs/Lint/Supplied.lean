import TagLint.Proofs.Lint.Keys
import TagLint.Proofs.Text.ByteOrder

/-!
# The keys of an allow-list, however it is supplied

An allow-list can be built from values, be given one value more, or be extended by several.
It accepts the non-empty pieces of the values given (`AllowList.keepsPieces`), so neither the
way they are supplied, nor their order, nor a repetition, nor joining some of them by commas
makes a difference.

* Supplying is building from all values at once (`run_eq_ofValues`).
* The pieces of a text are the parts in the one way to write it as parts without a comma
  with commas between them (`IsPiece`). A join of values by commas lists what the values list
  (`listedKeys_intercalate`).
* Every list is in increasing order (`increasing_ofValues`), so lists that accept the same
  keys are equal (`Increasing.ext`).
-/

namespace TagLint

/-! ## Pieces -/

/-- The text is written as parts with commas between them, and the key is one of the parts. -/
def IsPiece (key text : String) : Prop :=
  ∃ parts : List String, (∀ part ∈ parts, ',' ∉ part.toList) ∧ ",".intercalate parts = text ∧
    key ∈ parts

theorem splitAtCommas_intercalate {parts : List String} (hne : parts ≠ [])
    (h : ∀ part ∈ parts, ',' ∉ part.toList) :
    splitAtCommas (",".intercalate parts).toList = parts.map String.toList := by
  rw [String.toList_intercalate, splitAtCommas_eq_splitOn]
  show ([','].intercalate (parts.map String.toList)).splitOn ',' = _
  refine List.splitOn_intercalate ',' ?_ (by simpa using hne)
  intro piece hpiece
  obtain ⟨part, hpart, rfl⟩ := List.mem_map.1 hpiece
  exact h part hpart

theorem isPiece_iff {key text : String} :
    IsPiece key text ↔ key.toList ∈ splitAtCommas text.toList := by
  constructor
  · rintro ⟨parts, hparts, rfl, hkey⟩
    rw [splitAtCommas_intercalate (List.ne_nil_of_mem hkey) hparts]
    exact List.mem_map_of_mem hkey
  · intro hkey
    refine ⟨(splitAtCommas text.toList).map String.ofList, ?_, ?_, ?_⟩
    · intro part hpart
      obtain ⟨piece, hpiece, rfl⟩ := List.mem_map.1 hpart
      rw [String.toList_ofList]
      exact not_comma_of_mem_splitAtCommas hpiece
    · apply String.toList_inj.1
      have hjoin : [','].intercalate (splitAtCommas text.toList) = text.toList := by
        rw [splitAtCommas_eq_splitOn, List.intercalate_splitOn]
      simpa [String.toList_intercalate, Function.comp_def] using hjoin
    · exact List.mem_map.2 ⟨key.toList, hkey, String.ofList_toList⟩

/-- A value lists its pieces, save the empty one. -/
theorem mem_listedKeys_iff_isPiece {value key : String} :
    key ∈ listedKeys value ↔ key ≠ "" ∧ IsPiece key value := by
  rw [mem_listedKeys, isPiece_iff]

theorem listedKeys_append_comma (first second : String) :
    listedKeys (first ++ "," ++ second) = listedKeys first ++ listedKeys second := by
  have hsplit : splitAtCommas (first ++ "," ++ second).toList =
      splitAtCommas first.toList ++ splitAtCommas second.toList := by
    simp only [splitAtCommas_eq_splitOn, List.splitOn_eq_splitOnP, String.toList_append,
      List.append_assoc]
    exact List.splitOnP_append_cons _ _ (beq_self_eq_true ',')
  simp only [listedKeys, hsplit, List.filter_append, List.map_append]

/-- Values joined by commas list what they list one by one. -/
theorem listedKeys_intercalate (values : List String) :
    listedKeys (",".intercalate values) = values.flatMap listedKeys := by
  induction values with
  | nil => rfl
  | cons value values ih =>
    cases values with
    | nil => simp
    | cons next rest =>
      rw [String.intercalate_cons_cons, listedKeys_append_comma, ih]
      exact List.flatMap_cons.symm

/-- Groups of values, each joined by commas, list what the values list. -/
theorem exists_listedKeys_join {groups : List (List String)} {key : String} :
    (∃ value ∈ groups.map ",".intercalate, key ∈ listedKeys value) ↔
      ∃ value ∈ groups.flatten, key ∈ listedKeys value := by
  constructor
  · rintro ⟨_, hjoin, hkey⟩
    obtain ⟨group, hgroup, rfl⟩ := List.mem_map.1 hjoin
    rw [listedKeys_intercalate] at hkey
    obtain ⟨value, hvalue, hlisted⟩ := List.mem_flatMap.1 hkey
    exact ⟨value, List.mem_flatten.2 ⟨group, hgroup, hvalue⟩, hlisted⟩
  · rintro ⟨value, hflat, hlisted⟩
    obtain ⟨group, hgroup, hvalue⟩ := List.mem_flatten.1 hflat
    refine ⟨",".intercalate group, List.mem_map_of_mem hgroup, ?_⟩
    rw [listedKeys_intercalate]
    exact List.mem_flatMap.2 ⟨value, hvalue, hlisted⟩

namespace AllowList

/-! ## Order of the keys -/

/-- Each key is smaller than those after it. -/
def Increasing (allowed : AllowList) : Prop := allowed.keys.Pairwise (· < ·)

theorem pairwise_insertSorted (key : String) {keys : List String} (h : keys.Pairwise (· < ·)) :
    (insertSorted key keys).Pairwise (· < ·) := by
  induction keys with
  | nil => exact List.pairwise_singleton _ key
  | cons first rest ih =>
    obtain ⟨hfirst, hrest⟩ := List.pairwise_cons.1 h
    rw [insertSorted]
    split
    case isTrue hlt =>
      refine List.pairwise_cons.2 ⟨?_, h⟩
      intro other hother
      rcases List.mem_cons.1 hother with rfl | hlater
      · exact hlt
      · exact String.lt_trans hlt (hfirst other hlater)
    case isFalse hnot =>
      split
      case isTrue => exact h
      case isFalse hne =>
        refine List.pairwise_cons.2 ⟨?_, ih hrest⟩
        intro other hother
        rcases mem_insertSorted.1 hother with rfl | hlater
        · exact Std.lt_of_le_of_ne (String.not_lt.1 hnot) (Ne.symm hne)
        · exact hfirst other hlater

theorem Increasing.addValue {allowed : AllowList} (h : allowed.Increasing) (value : String) :
    (allowed.addValue value).Increasing := by
  unfold AllowList.addValue
  induction listedKeys value generalizing allowed with
  | nil => exact h
  | cons key keys ih => exact ih (pairwise_insertSorted key h)

theorem Increasing.addValues {allowed : AllowList} (h : allowed.Increasing)
    (values : List String) : (allowed.addValues values).Increasing := by
  unfold AllowList.addValues
  induction values generalizing allowed with
  | nil => exact h
  | cons value values ih => exact ih (h.addValue value)

theorem increasing_ofValues (values : List String) : (ofValues values).Increasing :=
  Increasing.addValues List.Pairwise.nil values

theorem Increasing.nodup {allowed : AllowList} (h : allowed.Increasing) : allowed.keys.Nodup :=
  h.imp fun hlt => by
    rintro rfl
    exact String.lt_irrefl _ hlt

/-- A listing of the accepted keys, each once, is the keys up to order. -/
theorem Increasing.perm_keys {allowed : AllowList} (h : allowed.Increasing) {listing : List String}
    (hnodup : listing.Nodup) (hlisting : ∀ key, key ∈ listing ↔ allowed.contains key = true) :
    listing.Perm allowed.keys := by
  refine (List.perm_ext_iff_of_nodup hnodup h.nodup).2 fun key => ?_
  rw [hlisting, contains, List.contains_iff_mem]

/-- Lists in increasing order that accept the same keys are equal. -/
theorem Increasing.ext {first second : AllowList} (hfirst : first.Increasing)
    (hsecond : second.Increasing)
    (h : ∀ key, first.contains key = true ↔ second.contains key = true) : first = second := by
  have hperm : first.keys.Perm second.keys :=
    hsecond.perm_keys hfirst.nodup fun key => by rw [← h, contains, List.contains_iff_mem]
  have hkeys : first.keys = second.keys :=
    hperm.eq_of_pairwise (fun _ _ _ _ hlt hgt => absurd hgt (String.lt_asymm hlt)) hfirst hsecond
  cases first
  cases second
  exact congrArg mk hkeys

/-! ## Supplying values -/

/-- A way to give values to an allow-list. -/
inductive Supply where
  /-- A new list is built from the values. -/
  | build (values : List String)
  /-- One more value is added. -/
  | addValue (value : String)
  /-- The list is extended by more values. -/
  | extend (values : List String)

/-- The list after a supply. -/
def supply (allowed : AllowList) : Supply → AllowList
  | .build values => ofValues values
  | .addValue value => allowed.addValue value
  | .extend values => allowed.addValues values

/-- The values given up to a supply, from those given before it. -/
def Supply.collect (earlier : List String) : Supply → List String
  | .build values => values
  | .addValue value => earlier ++ [value]
  | .extend values => earlier ++ values

/-- The list after some supplies, the empty list at first. -/
def run (supplies : List Supply) : AllowList := supplies.foldl supply empty

/-- The values that the list after some supplies was given. -/
def supplied (supplies : List Supply) : List String := supplies.foldl Supply.collect []

theorem supply_ofValues (values : List String) (next : Supply) :
    (ofValues values).supply next = ofValues (next.collect values) := by
  cases next with
  | build new => rfl
  | addValue value => simp [supply, Supply.collect, ofValues, addValues]
  | extend more => simp [supply, Supply.collect, ofValues, addValues]

/-- Supplying is building from all values at once. -/
theorem run_eq_ofValues (supplies : List Supply) :
    run supplies = ofValues (supplied supplies) := by
  suffices h : ∀ values, supplies.foldl supply (ofValues values) =
      ofValues (supplies.foldl Supply.collect values) from h []
  intro values
  induction supplies generalizing values with
  | nil => rfl
  | cons next later ih => rw [List.foldl_cons, supply_ofValues, ih, List.foldl_cons]

/-- Values that list the same keys make the same list. -/
theorem ofValues_congr {first second : List String}
    (h : ∀ key, (∃ value ∈ first, key ∈ listedKeys value) ↔
      ∃ value ∈ second, key ∈ listedKeys value) : ofValues first = ofValues second :=
  (increasing_ofValues first).ext (increasing_ofValues second) fun key => by
    rw [contains_ofValues, contains_ofValues, h]

/-- The keys accepted after some supplies are the non-empty pieces of the values given. -/
theorem contains_run {supplies : List Supply} {key : String} :
    (run supplies).contains key = true ↔
      key ≠ "" ∧ ∃ value ∈ supplied supplies, IsPiece key value := by
  rw [run_eq_ofValues, contains_ofValues]
  simp only [mem_listedKeys_iff_isPiece, and_left_comm, exists_and_left]

theorem increasing_run (supplies : List Supply) : (run supplies).Increasing := by
  rw [run_eq_ofValues]
  exact increasing_ofValues _

/-- Supplies that give the same values make the same list, in whatever order and however often
they give them. -/
theorem run_congr_supplied {first second : List Supply}
    (h : ∀ value, value ∈ supplied first ↔ value ∈ supplied second) :
    run first = run second := by
  rw [run_eq_ofValues, run_eq_ofValues]
  refine ofValues_congr fun key => ?_
  simp only [h]

/-- Building from joins of groups of the values gives the list. -/
theorem ofValues_groups {supplies : List Supply} {groups : List (List String)}
    (h : ∀ value, value ∈ groups.flatten ↔ value ∈ supplied supplies) :
    ofValues (groups.map ",".intercalate) = run supplies := by
  rw [run_eq_ofValues]
  refine ofValues_congr fun key => ?_
  rw [exists_listedKeys_join]
  simp only [h]

/-- What the list after some supplies is: the non-empty pieces of the values it was given. -/
structure KeepsPieces (supplies : List Supply) : Prop where
  /-- The keys accepted are the non-empty pieces. -/
  contains_iff : ∀ key, (run supplies).contains key = true ↔
    key ≠ "" ∧ ∃ value ∈ supplied supplies, IsPiece key value
  /-- Neither the order of the values matters nor how often each is given. -/
  reordered : ∀ others : List Supply,
    (∀ value, value ∈ supplied others ↔ value ∈ supplied supplies) → run others = run supplies
  /-- Nor which of them are given as one value, joined by commas. -/
  regrouped : ∀ (others : List Supply) (groups : List (List String)),
    supplied others = groups.map ",".intercalate →
    (∀ value, value ∈ groups.flatten ↔ value ∈ supplied supplies) → run others = run supplies
  /-- All of them may be joined. -/
  joined : ofValues [",".intercalate (supplied supplies)] = run supplies
  not_empty : (run supplies).contains "" = false
  not_comma : ∀ key, (run supplies).contains key = true → ',' ∉ key.toList
  /-- The keys are listed in increasing order of their bytes. -/
  bytes_lt : (run supplies).keys.Pairwise fun first second =>
    Text.utf8 first.toList < Text.utf8 second.toList
  mem_keys : ∀ key, key ∈ (run supplies).keys ↔ (run supplies).contains key = true
  size_eq : (run supplies).size = (run supplies).keys.length
  /-- The size is the number of accepted keys, however they are listed. -/
  size_listing : ∀ listing : List String, listing.Nodup →
    (∀ key, key ∈ listing ↔ (run supplies).contains key = true) →
    (run supplies).size = listing.length

/-- **However it is supplied, an allow-list is the set of non-empty pieces.** -/
theorem keepsPieces (supplies : List Supply) : KeepsPieces supplies := by
  have hincreasing := increasing_run supplies
  have hall : ∀ value, value ∈ [supplied supplies].flatten ↔ value ∈ supplied supplies := by simp
  refine
    { contains_iff := fun key => contains_run
      reordered := fun others => run_congr_supplied
      regrouped := ?regrouped
      joined := ofValues_groups hall
      not_empty := ?not_empty
      not_comma := ?not_comma
      bytes_lt := hincreasing.imp Text.utf8_lt_iff.2
      mem_keys := fun key => by rw [contains, List.contains_iff_mem]
      size_eq := rfl
      size_listing := ?size_listing }
  case regrouped =>
    intro others groups hjoins hgroups
    rw [run_eq_ofValues others, hjoins]
    exact ofValues_groups hgroups
  case not_empty =>
    rw [Bool.eq_false_iff]
    intro hempty
    exact (contains_run.1 hempty).1 rfl
  case not_comma =>
    intro key hkey
    rw [run_eq_ofValues] at hkey
    exact not_comma_of_contains hkey
  case size_listing =>
    intro listing hnodup hlisting
    exact (hincreasing.perm_keys hnodup hlisting).length_eq.symm

example : (run [.build ["json,,xml"], .addValue "yaml,json", .extend [",", "é"]]).keys =
    ["json", "xml", "yaml", "é"] := by decide

end AllowList

end TagLint
