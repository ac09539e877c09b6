import TagLint.Proofs.Json.Reading
import TagLint.Proofs.Json.Records
import TagLint.Proofs.Manifest.Loading

/-!
# Manifests that were written as JSON

A manifest can be written in many ways. A field at its default is written or left out, an absent
option is `null` if it is written, members stand in any order (`Manifest.WrittenAs`), and the value
that results has many texts, with blanks and escapes wherever the grammar has them.

Loading undoes all of it (`Manifest.parse_of_writtenAs`). Only the ranges must be right: those of
the tags, which loading checks, and the offsets of declarations and fields, which must be offsets.
-/

namespace TagLint

/-! ## Ways to write a manifest -/

/-- A text, written as a string. -/
def Json.WritesText (s : String) (value : Json) : Prop := value = .text s

/-- An offset, written in base ten. -/
def Json.WritesOffset (offset : Offset) (value : Json) : Prop := value = .nat offset

/-- A tag has both its fields. -/
def TagLiteral.WrittenAs (tag : TagLiteral) (value : Json) : Prop :=
  Json.IsRecord ["text", "offset"] [some (.text tag.text), some (.nat tag.offset)] value

/-- Every part of a field has a default. -/
def FieldDecl.WrittenAs (field : FieldDecl) (value : Json) : Prop :=
  ∃ name offset tag,
    Json.Defaulted none (Json.Nullable Json.WritesText) field.name? name ∧
    Json.Defaulted 0 Json.WritesOffset field.offset offset ∧
    Json.Defaulted none (Json.Nullable TagLiteral.WrittenAs) field.tag? tag ∧
    Json.IsRecord ["name", "offset", "tag"] [name, offset, tag] value

def TypeDecl.WrittenAs (decl : TypeDecl) (value : Json) : Prop :=
  ∃ name offset fields,
    Json.Defaulted none (Json.Nullable Json.WritesText) decl.name? name ∧
    Json.Defaulted 0 Json.WritesOffset decl.offset offset ∧
    Json.Defaulted [] (Json.Listed FieldDecl.WrittenAs) decl.fields fields ∧
    Json.IsRecord ["name", "offset", "fields"] [name, offset, fields] value

/-- A manifest always has its path. -/
def Manifest.WrittenAs (manifest : Manifest) (value : Json) : Prop :=
  ∃ source decls,
    Json.Defaulted none (Json.Nullable Json.WritesText) manifest.source? source ∧
    Json.Defaulted [] (Json.Listed TypeDecl.WrittenAs) manifest.decls decls ∧
    Json.IsRecord ["path", "source", "decls"] [some (.text manifest.path), source, decls] value

/-- The offsets of a declaration and its fields are not past the limit. -/
structure TypeDecl.Fits (decl : TypeDecl) : Prop where
  offset : decl.offset ≤ Offset.limit
  fields : ∀ field ∈ decl.fields, field.offset ≤ Offset.limit

/-- The offsets of all declarations and fields are not past the limit. -/
def Manifest.Fits (manifest : Manifest) : Prop := ∀ decl ∈ manifest.decls, decl.Fits

/-! ## Decoding gives back what was written -/

theorem Json.recovers_text (s : String) : Recovers text? WritesText s := by
  intro value hvalue
  rw [hvalue]
  rfl

theorem Json.recovers_offset {offset : Offset} (h : offset ≤ Offset.limit) :
    Recovers offset? WritesOffset offset := by
  intro value hvalue
  rw [hvalue]
  exact offset?_nat h

theorem Json.recovers_optional (text? : Option String) :
    Recovers (nullable? Json.text?) (Nullable WritesText) text? :=
  Recovers.nullable? rfl fun s _ => recovers_text s

theorem TagLiteral.InRange.offset_le {source? : Option String} {tag : TagLiteral}
    (h : tag.InRange source?) : tag.offset ≤ Offset.limit :=
  Nat.le_trans (Nat.le_add_right _ _) h.1

theorem TagLiteral.recovers {tag : TagLiteral} (h : tag.offset ≤ Offset.limit) :
    Json.Recovers ofJson? WrittenAs tag := by
  intro value hvalue
  have hfields := Json.fields?_of_isRecord hvalue (by decide) rfl
  simp [ofJson?, hfields, Json.required?, Json.text?_text, Json.offset?_nat h]

theorem FieldDecl.recovers {source? : Option String} {field : FieldDecl}
    (hoffset : field.offset ≤ Offset.limit) (hrange : field.InRange source?) :
    Json.Recovers ofJson? WrittenAs field := by
  rintro value ⟨name, offset, tag, hname, hoffsets, htags, hrecord⟩
  have htag : Json.Recovers (Json.nullable? TagLiteral.ofJson?) (Json.Nullable TagLiteral.WrittenAs)
      field.tag? :=
    Json.Recovers.nullable? rfl fun tag htag => TagLiteral.recovers (hrange tag htag).offset_le
  have hfields := Json.fields?_of_isRecord hrecord (by decide) rfl
  simp [ofJson?, hfields, (Json.recovers_optional _).defaulting? hname,
    (Json.recovers_offset hoffset).defaulting? hoffsets, htag.defaulting? htags]

theorem TypeDecl.recovers {source? : Option String} {decl : TypeDecl} (hfits : decl.Fits)
    (hrange : decl.InRange source?) : Json.Recovers ofJson? WrittenAs decl := by
  rintro value ⟨name, offset, fields, hname, hoffset, hlist, hrecord⟩
  have hdecode : Json.Recovers (Json.list? FieldDecl.ofJson?) (Json.Listed FieldDecl.WrittenAs)
      decl.fields :=
    Json.Recovers.list? fun field hfield =>
      FieldDecl.recovers (hfits.fields field hfield) (hrange field hfield)
  have hfields := Json.fields?_of_isRecord hrecord (by decide) rfl
  simp [ofJson?, hfields, (Json.recovers_optional _).defaulting? hname,
    (Json.recovers_offset hfits.offset).defaulting? hoffset, hdecode.defaulting? hlist]

namespace Manifest

variable {manifest : Manifest}

theorem recovers (hfits : manifest.Fits) (hrange : manifest.InRange) :
    Json.Recovers ofJson? WrittenAs manifest := by
  rintro value ⟨source, decls, hsource, hlist, hrecord⟩
  have hdecode : Json.Recovers (Json.list? TypeDecl.ofJson?) (Json.Listed TypeDecl.WrittenAs)
      manifest.decls :=
    Json.Recovers.list? fun decl hdecl => TypeDecl.recovers (hfits decl hdecl) (hrange decl hdecl)
  have hfields := Json.fields?_of_isRecord hrecord (by decide) rfl
  simp [ofJson?, hfields, Json.required?, Json.text?_text,
    (Json.recovers_optional _).defaulting? hsource, hdecode.defaulting? hlist]

/-- Every text of a manifest is loaded as that manifest. -/
theorem parse_of_writtenAs (hfits : manifest.Fits) (hrange : manifest.InRange) {value : Json}
    (hvalue : manifest.WrittenAs value) {text : String} (htext : Json.IsText value text.toList)
    (file : String) : parse file text = .ok manifest := by
  have hdecode : (Json.parse? text.toList).bind ofJson? = some manifest := by
    rw [Json.parse?_eq_some htext]
    exact recovers hfits hrange hvalue
  simp only [parse, hdecode, fault?_eq_none_iff.2 hrange]

/-! ## One manifest -/

/-- A field whose tag is full of quotes and backslashes. -/
def escapedField : FieldDecl := ⟨some "F", 5, some ⟨"\"k:\\\"v\\\"\"", 7⟩⟩

/-- A manifest with the field in a declaration that has neither name nor offset. -/
def escapedManifest : Manifest := ⟨"a.go", none, [⟨none, 0, [escapedField]⟩]⟩

/-- The field with all its members, none in its usual place. -/
def escapedFieldValue : Json :=
  .record [("tag", .record [("offset", .nat 7), ("text", .text "\"k:\\\"v\\\"\"")]),
    ("name", .text "F"), ("offset", .nat 5)]

/-- The manifest with its source written as absent, and what else is at a default left out. -/
def escapedManifestValue : Json :=
  .record [("source", .null), ("decls", .array [.record [("fields", .array [escapedFieldValue])]]),
    ("path", .text "a.go")]

/-- A text of the value. -/
def escapedManifestText : String :=
  "\x7b\"source\":null,\"decls\":[\x7b\"fields\":[\x7b\"tag\":\x7b\"offset\":7," ++
    "\"text\":\"\\\"k:\\\\\\\"v\\\\\\\"\\\"\"\x7d,\"name\":\"F\",\"offset\":5\x7d]\x7d]," ++
    "\"path\":\"a.go\"\x7d"

theorem writtenAs_escapedField : escapedField.WrittenAs escapedFieldValue := by
  have htag : TagLiteral.WrittenAs ⟨"\"k:\\\"v\\\"\"", 7⟩
      (.record [("offset", .nat 7), ("text", .text "\"k:\\\"v\\\"\"")]) :=
    ⟨_, .swap _ _ _, rfl⟩
  exact ⟨_, _, _, .written (.present rfl), .written rfl, .written (.present htag),
    ⟨_, @List.perm_append_comm _ [_] [_, _], rfl⟩⟩

theorem writtenAs_escapedManifest : escapedManifest.WrittenAs escapedManifestValue := by
  have hdecl : TypeDecl.WrittenAs ⟨none, 0, [escapedField]⟩
      (.record [("fields", .array [escapedFieldValue])]) :=
    ⟨_, _, _, .omitted rfl, .omitted rfl, .written (.array (.cons writtenAs_escapedField .nil)),
      ⟨_, .refl _, rfl⟩⟩
  exact ⟨_, _, .written .absent, .written (.array (.cons hdecl .nil)),
    ⟨_, @List.perm_append_comm _ [_, _] [_], rfl⟩⟩

theorem written_escapedManifestValue : escapedManifestValue.Written := by
  have htag : (Json.record [("offset", .nat 7), ("text", .text "\"k:\\\"v\\\"\"")]).Written := by
    apply Json.written_record
    simp [Json.written_nat, Json.written_text]
  have hfield : escapedFieldValue.Written := by
    apply Json.written_record
    simp [Json.written_nat, Json.written_text, htag]
  have hfields : (Json.array [escapedFieldValue]).Written := by
    apply Json.written_array
    simpa using hfield
  have hdecl : (Json.record [("fields", .array [escapedFieldValue])]).Written := by
    apply Json.written_record
    simpa using hfields
  have hdecls : (Json.array [.record [("fields", .array [escapedFieldValue])]]).Written := by
    apply Json.written_array
    simpa using hdecl
  apply Json.written_record
  simp [Json.written_null, Json.written_text, hdecls]

theorem parse_of_writtenAs_escapedManifest :
    parse "m.json" escapedManifestText = .ok escapedManifest := by
  have hfits : escapedManifest.Fits := by
    intro decl hdecl
    obtain rfl := List.mem_singleton.1 hdecl
    refine ⟨by decide, ?_⟩
    intro field hfield
    obtain rfl := List.mem_singleton.1 hfield
    decide
  have hrange : escapedManifest.InRange :=
    fault?_eq_none_iff.1 (by decide +kernel : escapedManifest.fault? "m.json" = none)
  have htext : Json.IsText escapedManifestValue escapedManifestValue.render :=
    written_escapedManifestValue.element
  have hrender : escapedManifestValue.render = escapedManifestText.toList := by
    decide +kernel
  rw [hrender] at htext
  exact parse_of_writtenAs hfits hrange writtenAs_escapedManifest htext "m.json"

end Manifest

end TagLint
