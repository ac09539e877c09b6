import Mathlib.Data.List.Basic
import TagLint.Lint.Walk

/-!
# The counts of a walk

`summarize` adds up its counts while it goes from field to field; what is reported passes it
by. A run closes with its count of problems all the same, so that count has to be the number
of findings. Each lemma says what is added to counts that are already there:

- a field adds itself, its tag and the problems of that (`countField_eq`), and so the fields
  of a type add up (`foldl_countField`);
- a type adds itself and its tagged fields (`countDecl_eq`), and so the types of a walk add up
  (`foldl_countDecl`).
-/

namespace TagLint

variable {allowed : AllowList}

/-- The tagged fields of a type, gathered field by field. -/
theorem TypeDecl.taggedFields_eq (decl : TypeDecl) :
    decl.taggedFields = decl.fields.flatMap fun field =>
      field.tag?.toList.map (TaggedField.mk decl field) := by
  rw [TypeDecl.taggedFields, List.filterMap_eq_flatMap_toList]
  simp only [Option.toList_map]

theorem TypeDecl.map_tag_taggedFields (decl : TypeDecl) :
    decl.taggedFields.map TaggedField.tag =
      decl.fields.flatMap fun field => field.tag?.toList := by
  rw [decl.taggedFields_eq, List.map_flatMap]
  simp only [List.map_map, Function.comp_def, List.map_id']

/-- A tag has as many findings as problems, whatever its place. -/
theorem length_findings (places : List TaggedField) :
    (places.flatMap (TaggedField.findings allowed)).length =
      ((places.map TaggedField.tag).flatMap (TagLiteral.check allowed)).length := by
  simp only [List.length_flatMap, TaggedField.findings, List.length_map, List.map_map,
    Function.comp_def]

namespace WalkSummary

theorem countField_eq (summary : WalkSummary) (field : FieldDecl) :
    countField allowed summary field =
      { summary with
        fields := summary.fields + 1
        tags := summary.tags + field.tag?.toList.length
        problems := summary.problems +
          (field.tag?.toList.flatMap (TagLiteral.check allowed)).length } := by
  unfold countField
  cases field.tag? with
  | none => rfl
  | some tag => rw [Option.toList_some, List.flatMap_singleton, List.length_singleton]

theorem foldl_countField (fields : List FieldDecl) (summary : WalkSummary) :
    fields.foldl (countField allowed) summary =
      { summary with
        fields := summary.fields + fields.length
        tags := summary.tags + (fields.flatMap fun field => field.tag?.toList).length
        problems := summary.problems + ((fields.flatMap fun field =>
          field.tag?.toList).flatMap (TagLiteral.check allowed)).length } := by
  induction fields generalizing summary with
  | nil => rfl
  | cons field fields ih =>
    rw [List.foldl_cons, ih, countField_eq]
    simp only [List.flatMap_cons, List.flatMap_append, List.length_append, List.length_cons,
      Nat.add_assoc, Nat.add_comm 1]

theorem countDecl_eq (summary : WalkSummary) (decl : TypeDecl) :
    countDecl allowed summary decl =
      { decls := summary.decls + 1
        fields := summary.fields + decl.fields.length
        tags := summary.tags + decl.taggedFields.length
        problems := summary.problems +
          (decl.taggedFields.flatMap (TaggedField.findings allowed)).length } := by
  rw [countDecl, foldl_countField, length_findings, ← decl.map_tag_taggedFields, List.length_map]

theorem foldl_countDecl (decls : List TypeDecl) (summary : WalkSummary) :
    decls.foldl (countDecl allowed) summary =
      { decls := summary.decls + decls.length
        fields := summary.fields + (decls.flatMap TypeDecl.fields).length
        tags := summary.tags + (taggedFields decls).length
        problems := summary.problems + (walk allowed decls).length } := by
  induction decls generalizing summary with
  | nil => rfl
  | cons decl decls ih =>
    rw [List.foldl_cons, ih, countDecl_eq]
    simp only [walk, taggedFields, List.flatMap_cons, List.flatMap_append, List.length_append,
      List.length_cons, Nat.add_assoc, Nat.add_comm 1]

end WalkSummary

/-- Every count is the number of what a walk visits or finds. -/
theorem summarize_eq (allowed : AllowList) (decls : List TypeDecl) :
    summarize allowed decls =
      { decls := decls.length
        fields := (decls.flatMap TypeDecl.fields).length
        tags := (taggedFields decls).length
        problems := (walk allowed decls).length } := by
  rw [summarize, WalkSummary.foldl_countDecl]
  simp only [WalkSummary.zero, Nat.zero_add]

end TagLint
