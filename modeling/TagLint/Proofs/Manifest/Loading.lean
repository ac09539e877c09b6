import TagLint.Command.Line
import TagLint.Proofs.Json.Decoding

/-!
# Loading manifests, all or nothing

A run over manifests is given the names of files. It loads them in that order and looks at the
tags of each in the order of declarations and fields. `FileFails` says what can be wrong with
one file and which error that makes; inside a manifest it is the first tag out of its range
that counts (`Manifest.FirstOverrun`).

`runCheck_atomic` says that a run fails exactly if some file cannot be used, with the error of
the first such file and with nothing written, and that otherwise every manifest is checked.
-/

namespace TagLint

/-! ## Tags in their range -/

/-- Just past the last byte of a tag. -/
def TagLiteral.stop (tag : TagLiteral) : Nat := tag.offset + tag.text.utf8ByteSize

/-- A tag ends at an offset that can be reported, and inside the source where that is known. -/
def TagLiteral.InRange (source? : Option String) (tag : TagLiteral) : Prop :=
  tag.stop ≤ Offset.limit ∧ ∀ source ∈ source?, tag.stop ≤ source.utf8ByteSize

/-- The tag of a field is in its range, if there is one. -/
def FieldDecl.InRange (source? : Option String) (field : FieldDecl) : Prop :=
  ∀ tag ∈ field.tag?, tag.InRange source?

def TypeDecl.InRange (source? : Option String) (decl : TypeDecl) : Prop :=
  ∀ field ∈ decl.fields, field.InRange source?

/-- Every tag of a manifest is in its range. -/
def Manifest.InRange (manifest : Manifest) : Prop :=
  ∀ decl ∈ manifest.decls, decl.InRange manifest.source?

/-- The error that a tag out of its range makes; the limit of offsets comes before the source. -/
inductive TaggedField.Overruns (file : String) (source? : Option String) (place : TaggedField) :
    LoadError → Prop
  | limit : Offset.limit < place.tag.stop →
      place.Overruns file source? (.overflow file place.decl.displayName place.field.displayName
        (.endTooLarge place.tag.stop))
  | source {source : String} : place.tag.stop ≤ Offset.limit → source? = some source →
      source.utf8ByteSize < place.tag.stop →
      place.Overruns file source? (.outOfRange file place.decl.displayName
        place.field.displayName place.tag.stop source.utf8ByteSize)

/-- A tag is out of its range, and all tags before it in the manifest are not. -/
inductive Manifest.FirstOverrun (file : String) (manifest : Manifest) (error : LoadError) : Prop
  | intro {declsBefore declsAfter : List TypeDecl} {fieldsBefore fieldsAfter : List FieldDecl}
      {decl : TypeDecl} {field : FieldDecl} {tag : TagLiteral} :
      manifest.decls = declsBefore ++ decl :: declsAfter →
      (∀ earlier ∈ declsBefore, earlier.InRange manifest.source?) →
      decl.fields = fieldsBefore ++ field :: fieldsAfter →
      (∀ earlier ∈ fieldsBefore, earlier.InRange manifest.source?) →
      field.tag? = some tag → TaggedField.Overruns file manifest.source? ⟨decl, field, tag⟩ error →
      manifest.FirstOverrun file error

section Range

variable {file : String} {source? : Option String} {error : LoadError}

theorem TagLiteral.span_of_le {tag : TagLiteral} (h : tag.stop ≤ Offset.limit) :
    tag.span = .ok ⟨tag.offset, tag.stop⟩ := by
  have hstart : tag.offset ≤ Offset.limit := Nat.le_trans (Nat.le_add_right _ _) h
  show Span.ofRange tag.offset tag.stop = _
  rw [Span.ofRange, if_neg (Nat.not_lt.2 hstart), if_neg (Nat.not_lt.2 h)]

/-- The start of a tag can be past the limit only together with its end. -/
theorem TagLiteral.span_of_lt {tag : TagLiteral} (h : Offset.limit < tag.stop) :
    ∃ cause, tag.span = .error cause ∧
      (tag.offset ≤ Offset.limit → cause = .endTooLarge tag.stop) := by
  show ∃ cause, Span.ofRange tag.offset tag.stop = .error cause ∧ _
  unfold Span.ofRange
  by_cases hstart : Offset.limit < tag.offset
  · exact ⟨_, if_pos hstart, fun hle => absurd hstart (Nat.not_lt.2 hle)⟩
  · rw [if_neg hstart, if_pos h]
    exact ⟨_, rfl, fun _ => rfl⟩

namespace TaggedField

variable {place : TaggedField}

theorem fault?_of_le (h : place.tag.stop ≤ Offset.limit) :
    place.fault? file source? = source?.bind fun source =>
      if source.utf8ByteSize < place.tag.stop then
        some (.outOfRange file place.decl.displayName place.field.displayName place.tag.stop
          source.utf8ByteSize)
      else none := by
  rw [fault?, TagLiteral.span_of_le h]
  rfl

theorem fault?_of_lt (h : Offset.limit < place.tag.stop) :
    ∃ cause, place.fault? file source? =
        some (.overflow file place.decl.displayName place.field.displayName cause) ∧
      (place.tag.offset ≤ Offset.limit → cause = .endTooLarge place.tag.stop) := by
  obtain ⟨cause, hspan, hcause⟩ := TagLiteral.span_of_lt h
  refine ⟨cause, ?_, hcause⟩
  rw [fault?, hspan]

theorem fault?_eq_none_iff : place.fault? file source? = none ↔ place.tag.InRange source? := by
  by_cases hstop : place.tag.stop ≤ Offset.limit
  · rw [fault?_of_le hstop]
    cases source? with
    | none => simp [TagLiteral.InRange, hstop]
    | some source => simp [TagLiteral.InRange, hstop]
  · obtain ⟨cause, hfault, -⟩ := @fault?_of_lt file source? place (Nat.not_le.1 hstop)
    simp [TagLiteral.InRange, hstop, hfault]

theorem fault?_eq_some_iff (hstart : place.tag.offset ≤ Offset.limit) :
    place.fault? file source? = some error ↔ place.Overruns file source? error := by
  by_cases hstop : place.tag.stop ≤ Offset.limit
  · rw [fault?_of_le hstop]
    constructor
    · intro h
      obtain ⟨source, hsource, h⟩ := Option.bind_eq_some_iff.1 h
      split at h
      · rename_i hpast
        obtain rfl := Option.some.inj h
        exact .source hstop hsource hpast
      · cases h
    · intro h
      cases h with
      | limit hlimit => exact absurd hstop (Nat.not_le.2 hlimit)
      | source _ hsource hpast =>
        rw [hsource]
        exact if_pos hpast
  · obtain ⟨cause, hfault, hcause⟩ := @fault?_of_lt file source? place (Nat.not_le.1 hstop)
    rw [hfault, hcause hstart]
    constructor
    · intro h
      obtain rfl := Option.some.inj h
      exact .limit (Nat.not_le.1 hstop)
    · intro h
      cases h with
      | limit => rfl
      | source hlimit => exact absurd hlimit hstop

end TaggedField

/-- The first fault is looked for declaration by declaration and field by field. -/
theorem Manifest.fault?_eq (manifest : Manifest) :
    manifest.fault? file = manifest.decls.findSome? fun decl =>
      decl.fields.findSome? fun field =>
        field.tag?.bind fun tag => TaggedField.fault? file manifest.source? ⟨decl, field, tag⟩ := by
  have hdecl (decl : TypeDecl) (fields : List FieldDecl) :
      (fields.filterMap fun field => field.tag?.map (TaggedField.mk decl field)).findSome?
          (TaggedField.fault? file manifest.source?) =
        fields.findSome? fun field => field.tag?.bind fun tag =>
          TaggedField.fault? file manifest.source? ⟨decl, field, tag⟩ := by
    induction fields with
    | nil => rfl
    | cons field fields ih =>
      rw [List.findSome?_cons, ← ih]
      cases htag : field.tag? with
      | none => simp [htag]
      | some tag => simp [htag, List.findSome?_cons]
  unfold Manifest.fault? taggedFields
  induction manifest.decls with
  | nil => rfl
  | cons decl decls ih =>
    rw [List.flatMap_cons, List.findSome?_append, ih, TypeDecl.taggedFields, hdecl,
      List.findSome?_cons]
    cases decl.fields.findSome? _ <;> rfl

theorem Manifest.fault?_eq_none_iff {manifest : Manifest} :
    manifest.fault? file = none ↔ manifest.InRange := by
  rw [manifest.fault?_eq]
  simp only [List.findSome?_eq_none_iff, Option.bind_eq_none_iff, TaggedField.fault?_eq_none_iff]
  rfl

theorem Manifest.fault?_eq_some_iff {manifest : Manifest}
    (hstart : ∀ decl ∈ manifest.decls, ∀ field ∈ decl.fields, ∀ tag ∈ field.tag?,
      tag.offset ≤ Offset.limit) :
    manifest.fault? file = some error ↔ manifest.FirstOverrun file error := by
  rw [manifest.fault?_eq, List.findSome?_eq_some_iff]
  simp only [List.findSome?_eq_some_iff, List.findSome?_eq_none_iff, Option.bind_eq_some_iff,
    Option.bind_eq_none_iff, TaggedField.fault?_eq_none_iff]
  constructor
  · rintro ⟨declsBefore, decl, declsAfter, hdecls, ⟨fieldsBefore, field, fieldsAfter, hfields,
      ⟨tag, htag, hfault⟩, hearlier⟩, hbefore⟩
    have hoffset := hstart decl (by simp [hdecls]) field (by simp [hfields]) tag htag
    exact .intro hdecls hbefore hfields hearlier htag
      ((TaggedField.fault?_eq_some_iff hoffset).1 hfault)
  · rintro ⟨hdecls, hbefore, hfields, hearlier, htag, hoverruns⟩
    rename_i declsBefore declsAfter fieldsBefore fieldsAfter decl field tag
    have hoffset := hstart decl (by simp [hdecls]) field (by simp [hfields]) tag htag
    exact ⟨declsBefore, decl, declsAfter, hdecls, ⟨fieldsBefore, field, fieldsAfter, hfields,
      ⟨tag, htag, (TaggedField.fault?_eq_some_iff hoffset).2 hoverruns⟩, hearlier⟩, hbefore⟩

theorem Manifest.not_inRange_iff {manifest : Manifest} :
    ¬ manifest.InRange ↔ ∃ decl ∈ manifest.decls, ∃ field ∈ decl.fields, ∃ tag ∈ field.tag?,
      Offset.limit < tag.stop ∨ ∃ source ∈ manifest.source?, source.utf8ByteSize < tag.stop := by
  simp only [Manifest.InRange, TypeDecl.InRange, FieldDecl.InRange, TagLiteral.InRange,
    not_forall, not_and_or, Nat.not_le, exists_prop]

end Range

/-! ## Tags that were read -/

/-- Every offset that is read can be reported, so only the end of a tag can be too far. -/
theorem TagLiteral.ensures_ofJson? :
    Json.Ensures TagLiteral.ofJson? fun tag => tag.offset ≤ Offset.limit := by
  intro value tag h
  unfold TagLiteral.ofJson? at h
  split at h
  · obtain ⟨text, -, h⟩ := Option.bind_eq_some_iff.1 h
    obtain ⟨offset, hoffset, h⟩ := Option.bind_eq_some_iff.1 h
    obtain rfl := Option.some.inj h
    exact Json.ensures_offset?.required? hoffset
  · cases h

theorem FieldDecl.ensures_ofJson? :
    Json.Ensures FieldDecl.ofJson? fun field => ∀ tag ∈ field.tag?, tag.offset ≤ Offset.limit := by
  intro value field h
  unfold FieldDecl.ofJson? at h
  split at h
  · obtain ⟨name?, -, h⟩ := Option.bind_eq_some_iff.1 h
    obtain ⟨offset, -, h⟩ := Option.bind_eq_some_iff.1 h
    obtain ⟨tag?, htag, h⟩ := Option.bind_eq_some_iff.1 h
    obtain rfl := Option.some.inj h
    exact TagLiteral.ensures_ofJson?.nullable?.defaulting? (by simp) htag
  · cases h

theorem TypeDecl.ensures_ofJson? :
    Json.Ensures TypeDecl.ofJson? fun decl =>
      ∀ field ∈ decl.fields, ∀ tag ∈ field.tag?, tag.offset ≤ Offset.limit := by
  intro value decl h
  unfold TypeDecl.ofJson? at h
  split at h
  · obtain ⟨name?, -, h⟩ := Option.bind_eq_some_iff.1 h
    obtain ⟨offset, -, h⟩ := Option.bind_eq_some_iff.1 h
    obtain ⟨fields, hfields, h⟩ := Option.bind_eq_some_iff.1 h
    obtain rfl := Option.some.inj h
    exact FieldDecl.ensures_ofJson?.list?.defaulting? (by simp) hfields
  · cases h

namespace Manifest

theorem ensures_ofJson? :
    Json.Ensures ofJson? fun manifest =>
      ∀ decl ∈ manifest.decls, ∀ field ∈ decl.fields, ∀ tag ∈ field.tag?,
        tag.offset ≤ Offset.limit := by
  intro value manifest h
  unfold ofJson? at h
  split at h
  · obtain ⟨path, -, h⟩ := Option.bind_eq_some_iff.1 h
    obtain ⟨source?, -, h⟩ := Option.bind_eq_some_iff.1 h
    obtain ⟨decls, hdecls, h⟩ := Option.bind_eq_some_iff.1 h
    obtain rfl := Option.some.inj h
    exact TypeDecl.ensures_ofJson?.list?.defaulting? (by simp) hdecls
  · cases h

/-- The manifest that a text spells, wherever its tags lie. -/
def ofText? (text : String) : Option Manifest := (Json.parse? text.toList).bind ofJson?

end Manifest

/-! ## Files -/

section Files

variable {read : String → Option ByteArray}

/-- The text of a file, if it can be read. -/
def fileText? (read : String → Option ByteArray) (file : String) : Option String :=
  (read file).bind String.fromUTF8?

/-- A file can be read and spells a manifest. -/
def FileHolds (read : String → Option ByteArray) (file : String) (manifest : Manifest) : Prop :=
  ∃ text, fileText? read file = some text ∧ Manifest.ofText? text = some manifest

/-- A file cannot be read, spells no manifest, or holds one with a tag out of its range. -/
def FileUnusable (read : String → Option ByteArray) (file : String) : Prop :=
  fileText? read file = none ∨
    (∃ text, fileText? read file = some text ∧ Manifest.ofText? text = none) ∨
    ∃ manifest, FileHolds read file manifest ∧
      ∃ decl ∈ manifest.decls, ∃ field ∈ decl.fields, ∃ tag ∈ field.tag?,
        Offset.limit < tag.stop ∨ ∃ source ∈ manifest.source?, source.utf8ByteSize < tag.stop

/-- What is wrong with a file that cannot be used. -/
inductive FileFails (read : String → Option ByteArray) (file : String) : LoadError → Prop
  | unreadable : fileText? read file = none → FileFails read file (.unreadable file)
  | malformed {text : String} : fileText? read file = some text → Manifest.ofText? text = none →
      FileFails read file (.malformed file)
  | overrun {manifest : Manifest} {error : LoadError} : FileHolds read file manifest →
      manifest.FirstOverrun file error → FileFails read file error

namespace Manifest

theorem ofFile_of_unreadable {file : String} (h : fileText? read file = none) :
    ofFile file (read file) = .error (.unreadable file) := by
  unfold fileText? at h
  rw [ofFile, h]

theorem ofFile_of_text {file text : String} (h : fileText? read file = some text) :
    ofFile file (read file) = parse file text := by
  unfold fileText? at h
  rw [ofFile, h]

theorem ofFile_of_malformed {file text : String} (h : fileText? read file = some text)
    (hnone : ofText? text = none) : ofFile file (read file) = .error (.malformed file) := by
  unfold ofText? at hnone
  rw [ofFile_of_text h, parse, hnone]

theorem ofFile_of_holds {file : String} {manifest : Manifest} (h : FileHolds read file manifest) :
    ofFile file (read file) =
      match manifest.fault? file with
      | some error => .error error
      | none => .ok manifest := by
  obtain ⟨text, htext, hmanifest⟩ := h
  unfold ofText? at hmanifest
  cases hfault : manifest.fault? file with
  | none => simp only [ofFile_of_text htext, parse, hmanifest, hfault]
  | some error => simp only [ofFile_of_text htext, parse, hmanifest, hfault]

/-- A file cannot be read, spells no manifest, or holds one. -/
theorem file_cases (read : String → Option ByteArray) (file : String) :
    fileText? read file = none ∨
      (∃ text, fileText? read file = some text ∧ ofText? text = none) ∨
      ∃ manifest, FileHolds read file manifest := by
  cases htext : fileText? read file with
  | none => exact .inl rfl
  | some text =>
    cases hmanifest : ofText? text with
    | none => exact .inr (.inl ⟨text, rfl, hmanifest⟩)
    | some manifest => exact .inr (.inr ⟨manifest, text, htext, hmanifest⟩)

theorem ofFile_eq_ok_iff {file : String} {manifest : Manifest} :
    ofFile file (read file) = .ok manifest ↔ FileHolds read file manifest ∧ manifest.InRange := by
  constructor
  · intro h
    rcases file_cases read file with hnone | ⟨text, htext, hnone⟩ | ⟨other, hholds⟩
    · cases (ofFile_of_unreadable hnone).symm.trans h
    · cases (ofFile_of_malformed htext hnone).symm.trans h
    · rw [ofFile_of_holds hholds] at h
      split at h
      · cases h
      · rename_i hfault
        obtain rfl := Except.ok.inj h
        exact ⟨hholds, fault?_eq_none_iff.1 hfault⟩
  · rintro ⟨hholds, hrange⟩
    rw [ofFile_of_holds hholds, fault?_eq_none_iff.2 hrange]

theorem offset_le_of_holds {file : String} {manifest : Manifest}
    (h : FileHolds read file manifest) :
    ∀ decl ∈ manifest.decls, ∀ field ∈ decl.fields, ∀ tag ∈ field.tag?,
      tag.offset ≤ Offset.limit := by
  obtain ⟨text, -, hmanifest⟩ := h
  obtain ⟨value, -, hvalue⟩ := Option.bind_eq_some_iff.1 hmanifest
  exact ensures_ofJson? hvalue

theorem ofFile_eq_error_iff {file : String} {error : LoadError} :
    ofFile file (read file) = .error error ↔ FileFails read file error := by
  constructor
  · intro h
    rcases file_cases read file with hnone | ⟨text, htext, hnone⟩ | ⟨manifest, hholds⟩
    · obtain rfl := Except.error.inj ((ofFile_of_unreadable hnone).symm.trans h)
      exact .unreadable hnone
    · obtain rfl := Except.error.inj ((ofFile_of_malformed htext hnone).symm.trans h)
      exact .malformed htext hnone
    · rw [ofFile_of_holds hholds] at h
      split at h
      · rename_i hfault
        obtain rfl := Except.error.inj h
        exact .overrun hholds ((fault?_eq_some_iff (offset_le_of_holds hholds)).1 hfault)
      · cases h
  · intro h
    cases h with
    | unreadable hnone => exact ofFile_of_unreadable hnone
    | malformed htext hnone => exact ofFile_of_malformed htext hnone
    | overrun hholds hfirst =>
      rw [ofFile_of_holds hholds, (fault?_eq_some_iff (offset_le_of_holds hholds)).2 hfirst]

/-- A file can be used or not, and not both. -/
theorem not_fileUnusable_iff {file : String} :
    ¬ FileUnusable read file ↔ ∃ manifest, ofFile file (read file) = .ok manifest := by
  simp only [ofFile_eq_ok_iff]
  constructor
  · intro h
    rcases file_cases read file with hnone | htext | ⟨manifest, hholds⟩
    · exact absurd (.inl hnone) h
    · exact absurd (.inr (.inl htext)) h
    · refine ⟨manifest, hholds, ?_⟩
      by_contra hrange
      exact h (.inr (.inr ⟨manifest, hholds, not_inRange_iff.1 hrange⟩))
  · rintro ⟨manifest, hholds, hrange⟩ hunusable
    obtain ⟨text, htext, hmanifest⟩ := hholds
    rcases hunusable with hnone | ⟨other, hother, hnone⟩ | ⟨other, ⟨text', htext', hother⟩, hover⟩
    · cases htext.symm.trans hnone
    · obtain rfl := Option.some.inj (htext.symm.trans hother)
      cases hmanifest.symm.trans hnone
    · obtain rfl := Option.some.inj (htext.symm.trans htext')
      obtain rfl := Option.some.inj (hmanifest.symm.trans hother)
      exact not_inRange_iff.2 hover hrange

end Manifest

/-! ## Runs -/

/-- Whether a run over some files fails, how, and what comes of it if it does not. -/
structure RunCheckAtomic (read : String → Option ByteArray) (allow : List String)
    (options : OutputOptions) (isTerminal : Bool) (files : List String) : Prop where
  fails_iff : (∃ error,
      runCheck read (.ofValues allow) (options.form isTerminal) files = .error error) ↔
    ∃ file ∈ files, FileUnusable read file
  /-- The error is that of the first file that cannot be used. -/
  first : ∀ error, runCheck read (.ofValues allow) (options.form isTerminal) files = .error error ↔
    ∃ before file after, files = before ++ file :: after ∧
      (∀ earlier ∈ before, ¬ FileUnusable read earlier) ∧ FileFails read file error
  /-- A command line whose run fails writes nothing to the output. -/
  silent : ∀ error, runCheck read (.ofValues allow) (options.form isTerminal) files = .error error →
    ∀ arguments, Command.ofArguments? arguments = some (.check allow options files) →
      runLine read isTerminal arguments = ⟨exitFailure, "", some (.failure (.load error))⟩
  loaded : ∀ outcome,
    runCheck read (.ofValues allow) (options.form isTerminal) files = .ok outcome ↔
      ∃ manifests, List.Forall₂
        (fun file manifest => FileHolds read file manifest ∧ manifest.InRange) files manifests ∧
      outcome = checkManifests (.ofValues allow) (options.form isTerminal) manifests

theorem runCheck_eq_error_iff {allowed : AllowList} {form : Form} {files : List String}
    {error : LoadError} :
    runCheck read allowed form files = .error error ↔
      Manifest.loadAll read files = .error error := by
  unfold runCheck
  cases Manifest.loadAll read files <;> simp [Except.map]

theorem runCheck_eq_ok_iff {allowed : AllowList} {form : Form} {files : List String}
    {outcome : Outcome} :
    runCheck read allowed form files = .ok outcome ↔ ∃ manifests,
      Manifest.loadAll read files = .ok manifests ∧
        outcome = checkManifests allowed form manifests := by
  unfold runCheck
  cases Manifest.loadAll read files <;> simp [Except.map, eq_comm]

theorem runCheck_atomic (read : String → Option ByteArray) (allow : List String)
    (options : OutputOptions) (isTerminal : Bool) (files : List String) :
    RunCheckAtomic read allow options isTerminal files := by
  constructor
  case fails_iff =>
    simp only [runCheck_eq_error_iff, Manifest.loadAll, exists_mapM_eq_error_iff,
      ← Manifest.not_fileUnusable_iff, not_not]
  case first =>
    intro error
    simp only [runCheck_eq_error_iff, Manifest.loadAll, mapM_eq_error_iff,
      ← Manifest.not_fileUnusable_iff, Manifest.ofFile_eq_error_iff]
  case silent =>
    intro error hrun arguments harguments
    simp only [runLine, harguments, Command.run, hrun, Except.mapError]
  case loaded =>
    intro outcome
    simp only [runCheck_eq_ok_iff, Manifest.loadAll, mapM_eq_ok_iff, Manifest.ofFile_eq_ok_iff]

end Files

/-- Three files. The first can be used. In the second a tag ends past the source and a later one
past the limit of offsets. The third cannot be read. -/
def badTags : String → Option ByteArray
  | "a.json" => some "\x7b\"path\":\"a\"\x7d".toUTF8
  | "b.json" => some ("\x7b\"path\":\"b\",\"source\":\"xyz\",\"decls\":[\x7b\"fields\":[" ++
      "\x7b\"tag\":\x7b\"text\":\"`a`\",\"offset\":0\x7d\x7d," ++
      "\x7b\"tag\":\x7b\"text\":\"`b`\",\"offset\":1\x7d\x7d," ++
      "\x7b\"tag\":\x7b\"text\":\"`c`\",\"offset\":4294967295\x7d\x7d]\x7d]\x7d").toUTF8
  | _ => none

theorem runCheck_atomic_badTags :
    Command.ofArguments? ["check", "a.json", "b.json", "c.json"] =
        some (.check [] ⟨.human, .auto⟩ ["a.json", "b.json", "c.json"]) ∧
      runLine badTags false ["check", "a.json", "b.json", "c.json"] =
        ⟨2, "", some (.failure (.load (.outOfRange "b.json" "<anonymous>" "_" 4 3)))⟩ := by
  have harguments : Command.ofArguments? ["check", "a.json", "b.json", "c.json"] =
      some (.check [] ⟨.human, .auto⟩ ["a.json", "b.json", "c.json"]) := by
    decide +kernel
  have hrun : runCheck badTags (.ofValues []) (.human false) ["a.json", "b.json", "c.json"] =
      .error (.outOfRange "b.json" "<anonymous>" "_" 4 3) := by
    decide +kernel
  have hatomic := runCheck_atomic badTags [] ⟨.human, .auto⟩ false ["a.json", "b.json", "c.json"]
  exact ⟨harguments, hatomic.silent _ hrun _ harguments⟩

end TagLint
