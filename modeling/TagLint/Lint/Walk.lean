import TagLint.Lint.Validate

/-!
# Walking declarations

A host hands over the composite types it found, each with its fields and their tag
literals. The walk visits every field in order and reports every problem of every tag with
the declaration and the field it belongs to. `summarize` keeps the counts of a walk beside
it; it never sees what is reported.
-/

namespace TagLint

/-- A field of a composite type. -/
structure FieldDecl where
  /-- The name; an embedded field may have none. -/
  name? : Option String
  offset : Offset
  /-- The tag, if the field has one. -/
  tag? : Option TagLiteral
deriving DecidableEq, Repr

/-- A composite type with its fields in source order. -/
structure TypeDecl where
  /-- The name; an anonymous type has none. -/
  name? : Option String
  offset : Offset
  fields : List FieldDecl
deriving DecidableEq, Repr

/-- How a field is named in a report. -/
def FieldDecl.displayName (field : FieldDecl) : String := field.name?.getD "_"

/-- How a type is named in a report. -/
def TypeDecl.displayName (decl : TypeDecl) : String := decl.name?.getD "<anonymous>"

/-- A tag in its place: a field that carries one, inside its type. -/
structure TaggedField where
  decl : TypeDecl
  field : FieldDecl
  tag : TagLiteral
deriving DecidableEq, Repr

/-- The tagged fields of a type, in order. -/
def TypeDecl.taggedFields (decl : TypeDecl) : List TaggedField :=
  decl.fields.filterMap fun field => field.tag?.map fun tag => ⟨decl, field, tag⟩

/-- The tagged fields of all types, in order. -/
def taggedFields (decls : List TypeDecl) : List TaggedField := decls.flatMap TypeDecl.taggedFields

/-- A problem with the tag it was found in. -/
structure Finding where
  place : TaggedField
  problem : Problem
deriving DecidableEq, Repr

/-- The problems of one tag, with its place. -/
def TaggedField.findings (allowed : AllowList) (place : TaggedField) : List Finding :=
  (place.tag.check allowed).map fun problem => ⟨place, problem⟩

/-- Every problem of every tag, in the order of declarations, fields and problems. -/
def walk (allowed : AllowList) (decls : List TypeDecl) : List Finding :=
  (taggedFields decls).flatMap (TaggedField.findings allowed)

/-- The counts of one walk. -/
structure WalkSummary where
  decls : Nat
  fields : Nat
  /-- The fields that carry a tag. -/
  tags : Nat
  problems : Nat
deriving DecidableEq, Repr

namespace WalkSummary

/-- Nothing visited yet. -/
def zero : WalkSummary := ⟨0, 0, 0, 0⟩

/-- The counts once a field is visited too. -/
def countField (allowed : AllowList) (summary : WalkSummary) (field : FieldDecl) : WalkSummary :=
  let visited := { summary with fields := summary.fields + 1 }
  match field.tag? with
  | none => visited
  | some tag =>
    { visited with
      tags := visited.tags + 1
      problems := visited.problems + (tag.check allowed).length }

/-- The counts once a type and its fields are visited too. -/
def countDecl (allowed : AllowList) (summary : WalkSummary) (decl : TypeDecl) : WalkSummary :=
  decl.fields.foldl (countField allowed) { summary with decls := summary.decls + 1 }

end WalkSummary

/-- Counts what a walk visits and finds, tag by tag as it goes. -/
def summarize (allowed : AllowList) (decls : List TypeDecl) : WalkSummary :=
  decls.foldl (WalkSummary.countDecl allowed) .zero

end TagLint
