import TagLint.Proofs.Command.Reports
import TagLint.Proofs.Json.Reading
import TagLint.Proofs.Json.Records

/-!
# Reading JSON output back

A reader of the JSON output knows nothing of emitters. It sees a text, takes the value that the
text spells, and decodes each item of the array by the names of its members
(`DiagnosticRecord.ofJson?`). What it gets are the diagnostics that were emitted, in order, each
with the file that the emitter had last been told of (`run_json_isReport`).

Three things have to fit. The array is written piece by piece, and the pieces make a text of the
grammar (`isText_lines`). Records are written as they should be, whatever the texts in them
(`Diagnostic.written_toJson`). And decoding a record undoes writing it
(`DiagnosticRecord.ofJson?_toJson`).
-/

namespace TagLint

/-! ## What a reader makes of a record -/

/-- A label as a reader finds it; line and column are missing together. -/
structure LabelRecord where
  start : Nat
  stop : Nat
  message : String
  place? : Option (Nat × Nat)
deriving DecidableEq, Repr

/-- A diagnostic as a reader finds it, with the name of its file. -/
structure DiagnosticRecord where
  code : String
  severity : String
  message : String
  file? : Option String
  labels : List LabelRecord
  notes : List String
  suggestions : List String
deriving DecidableEq, Repr

/-- The values of the named members of an object, `none` for one that is missing. -/
def Json.members? (names : List String) : Json → Option (List (Option Json))
  | .object members => fields? names (.object members)
  | _ => none

/-- Decodes a label. -/
def LabelRecord.ofJson? (value : Json) : Option LabelRecord :=
  match value.members? ["column", "end", "line", "message", "start"] with
  | some [some column, some stop, some line, some message, some start] => do
    return ⟨← start.nat?, ← stop.nat?, ← message.text?, some (← line.nat?, ← column.nat?)⟩
  | some [none, some stop, none, some message, some start] => do
    return ⟨← start.nat?, ← stop.nat?, ← message.text?, none⟩
  | _ => none

/-- Decodes a diagnostic. -/
def DiagnosticRecord.ofJson? (value : Json) : Option DiagnosticRecord :=
  match value.members?
    ["code", "file", "labels", "message", "notes", "severity", "suggestions"] with
  | some [some code, some file, some labels, some message, some notes, some severity,
      some suggestions] => do
    return {
      code := ← code.text?
      severity := ← severity.text?
      message := ← message.text?
      file? := ← Json.nullable? Json.text? file
      labels := ← Json.list? LabelRecord.ofJson? labels
      notes := ← Json.list? Json.text? notes
      suggestions := ← Json.list? Json.text? suggestions }
  | _ => none

/-- What a label says. It has a line and a column exactly when the source is known. -/
def Label.record (view : FileView) (label : Label) : LabelRecord where
  start := label.span.start
  stop := label.span.stop
  message := label.message
  place? := view.text?.map fun source => source.position label.span.start

/-- What a diagnostic says of a file. -/
def Diagnostic.record (view : FileView) (diagnostic : Diagnostic) : DiagnosticRecord where
  code := diagnostic.code.toText
  severity := "error"
  message := diagnostic.message
  file? := view.path?
  labels := diagnostic.labels.map (Label.record view)
  notes := diagnostic.notes
  suggestions := diagnostic.suggestions

/-! ## Decoding undoes writing -/

namespace Json

theorem members?_of_isRecord {names : List String} {slots : List (Option Json)} {value : Json}
    (h : IsRecord names slots value) (hnodup : names.Nodup)
    (hlength : names.length = slots.length) : value.members? names = some slots := by
  have hfields := fields?_of_isRecord h hnodup hlength
  obtain ⟨members, -, rfl⟩ := h
  exact hfields

theorem list?_map {α β : Type} {decode : Json → Option β} {write : α → Json} {result : α → β}
    (h : ∀ item, decode (write item) = some (result item)) (items : List α) :
    list? decode (.array (items.map write)) = some (items.map result) := by
  rw [list?_array, List.forall₂_map_left_iff, List.forall₂_map_right_iff, List.forall₂_same]
  intro item _
  exact h item

theorem list?_texts (items : List String) : list? text? (texts items) = some items := by
  have h : list? text? (.array (items.map text)) = some (items.map id) := list?_map text?_text items
  rwa [List.map_id] at h

end Json

section Decoding

variable (view : FileView)

theorem LabelRecord.ofJson?_toJson (label : Label) :
    ofJson? (label.toJson view.text?) = some (label.record view) := by
  unfold Label.record
  cases view.text? with
  | none =>
    have hmembers : (label.toJson none).members? ["column", "end", "line", "message", "start"] =
        some [none, some (.nat label.span.stop), none, some (.text label.message),
          some (.nat label.span.start)] :=
      Json.members?_of_isRecord ⟨_, .refl _, rfl⟩ (by decide) rfl
    simp [ofJson?, hmembers, Json.nat?_nat, Json.text?_text]
  | some source =>
    have hmembers : (label.toJson (some source)).members?
          ["column", "end", "line", "message", "start"] =
        some [some (.nat (source.position label.span.start).2), some (.nat label.span.stop),
          some (.nat (source.position label.span.start).1), some (.text label.message),
          some (.nat label.span.start)] :=
      Json.members?_of_isRecord ⟨_, .refl _, rfl⟩ (by decide) rfl
    simp [ofJson?, hmembers, Json.nat?_nat, Json.text?_text]

theorem DiagnosticRecord.ofJson?_toJson (diagnostic : Diagnostic) :
    ofJson? (diagnostic.toJson view) = some (diagnostic.record view) := by
  have hmembers : (diagnostic.toJson view).members?
        ["code", "file", "labels", "message", "notes", "severity", "suggestions"] =
      some [some (.text diagnostic.code.toText), some ((view.path?.map Json.text).getD .null),
        some (.array (diagnostic.labels.map (Label.toJson view.text?))),
        some (.text diagnostic.message), some (.texts diagnostic.notes), some (.text "error"),
        some (.texts diagnostic.suggestions)] :=
    Json.members?_of_isRecord ⟨_, .refl _, rfl⟩ (by decide) rfl
  have hfile : Json.nullable? Json.text? ((view.path?.map Json.text).getD .null) =
      some view.path? := by
    cases view.path? <;> rfl
  have hlabels := Json.list?_map (LabelRecord.ofJson?_toJson view) diagnostic.labels
  simp [ofJson?, hmembers, hfile, hlabels, Json.text?_text, Json.list?_texts, Diagnostic.record]

end Decoding

/-! ## Records are written as texts of the grammar -/

theorem Label.written_toJson (source? : Option SourceText) (label : Label) :
    (label.toJson source?).Written := by
  unfold Label.toJson
  cases source? with
  | none =>
    apply Json.written_record
    simp [Json.written_nat, Json.written_text]
  | some source =>
    apply Json.written_record
    simp [Json.written_nat, Json.written_text]

theorem Diagnostic.written_toJson (view : FileView) (diagnostic : Diagnostic) :
    (diagnostic.toJson view).Written := by
  have hfile : ((view.path?.map Json.text).getD .null).Written := by
    cases view.path? with
    | none => exact Json.written_null
    | some path => exact Json.written_text path
  have hlabels : (Json.array (diagnostic.labels.map (Label.toJson view.text?))).Written := by
    apply Json.written_array
    rw [List.forall_mem_map]
    intro label _
    exact label.written_toJson view.text?
  apply Json.written_record
  simp [hfile, hlabels, Json.written_text, Json.written_texts]

/-! ## An array with a line for each item -/

namespace Json

/-- Blanks may follow the last item. -/
theorem Blanks.spells_elements {vs : List Json} {cs after : List Char} (hafter : Blanks after)
    (h : Spells (.elements vs) cs) : Spells (.elements vs) (cs ++ after) := by
  induction vs generalizing cs with
  | nil => cases h
  | cons v vs ih =>
    cases h with
    | lastElement hv =>
      -- the blanks join those that follow the last item already
      cases hv with
      | @element _ before cs blanks hbefore hv hblanks =>
        have hall : Blanks (blanks ++ after) := by
          intro c hc
          exact (List.mem_append.1 hc).elim (hblanks c) (hafter c)
        rw [List.append_assoc, List.append_assoc]
        exact .lastElement (.element hbefore hv hall)
    | elements hv hlater =>
      rw [List.append_assoc, List.cons_append]
      exact .elements hv (ih hlater)

theorem intercalate_cons (separator first : List Char) (parts : List (List Char)) :
    separator.intercalate (first :: parts) = first ++ parts.flatMap (separator ++ ·) := by
  induction parts generalizing first with
  | nil => simp
  | cons part parts ih =>
    rw [List.intercalate_cons_cons, ih, List.flatMap_cons, List.append_assoc, List.append_assoc]

/-- An item on a line of its own. -/
def renderLine (item : Json) : List Char := '\n' :: ' ' :: ' ' :: item.render

theorem toList_opening (record : Json) (records : List Json) :
    (opening (record :: records)).toList =
      '[' :: (renderLine record ++ records.flatMap fun item => ',' :: renderLine item) := by
  rw [opening, if_neg (List.cons_ne_nil _ _), String.toList_append, String.toList_intercalate,
    List.map_map, List.map_cons, intercalate_cons, List.flatMap_map]
  simp [renderLine]

/-- The text of an array with a line for each item, without the newline at its end. -/
theorem isText_lines {records : List Json} (h : ∀ record ∈ records, record.Written) :
    ∃ text, lines records = text ++ "\n" ∧ IsText (.array records) text.toList := by
  cases records with
  | nil => exact ⟨"[]", rfl, .element blanks_nil (.emptyArray blanks_nil) blanks_nil⟩
  | cons record records =>
    refine ⟨opening (record :: records) ++ "\n]", ?_, ?_⟩
    · rw [lines, if_neg (List.cons_ne_nil _ _), String.append_assoc]
      rfl
    · -- the indent of a line stands before its item, and the last newline after the last item
      have hline : ∀ item ∈ record :: records, Spells (.element item) (renderLine item) := by
        intro item hitem
        have hindent : Blanks ['\n', ' ', ' '] := by simp [Blanks]
        have helement := Spells.element hindent (h item hitem) blanks_nil
        rwa [List.append_nil] at helement
      have hnewline : Blanks ['\n'] := by simp [Blanks]
      have hitems := hnewline.spells_elements (spells_elements hline)
      have htext := Spells.element blanks_nil (.array hitems) blanks_nil
      rw [String.toList_append, toList_opening]
      simpa [IsText] using htext

end Json

/-! ## Runs -/

/-- An output is one JSON text and a newline. The text spells an array and nothing else, and the
items of the array are read as some records. -/
def IsReport (output : String) (records : List DiagnosticRecord) : Prop :=
  ∃ text values, output = text ++ "\n" ∧
    (∀ value, Json.IsText value text.toList ↔ value = .array values) ∧
    Json.parse? text.toList = some (.array values) ∧
    values.mapM DiagnosticRecord.ofJson? = some records

/-- An array of the records of some diagnostics is read as what they say. -/
theorem isReport_lines (emitted : List (FileView × Diagnostic)) :
    IsReport (Json.lines (emittedRecords emitted))
      (emitted.map fun (view, diagnostic) => diagnostic.record view) := by
  have hwritten : ∀ record ∈ emittedRecords emitted, record.Written := by
    unfold emittedRecords
    rw [List.forall_mem_map]
    intro ⟨view, diagnostic⟩ _
    exact diagnostic.written_toJson view
  obtain ⟨text, hlines, htext⟩ := Json.isText_lines hwritten
  refine ⟨text, emittedRecords emitted, hlines, ?_, Json.parse?_eq_some htext, ?_⟩
  · intro value
    constructor
    · intro hvalue
      exact hvalue.unique htext
    · rintro rfl
      exact htext
  · rw [mapM_eq_some_iff, emittedRecords, List.forall₂_map_left_iff, List.forall₂_map_right_iff,
      List.forall₂_same]
    intro ⟨view, diagnostic⟩ _
    exact DiagnosticRecord.ofJson?_toJson view diagnostic

/-- The output of a run is read as the diagnostics that it emitted, in order. -/
theorem Emitter.run_json_isReport (view : FileView) (requests : List Request) (problems : Nat)
    (hinner : ∀ request ∈ requests, request.IsInner) :
    IsReport ((Emitter.ofForm .json view).run (.start :: requests ++ [.finish problems]))
      ((emissions view requests).map fun (view, diagnostic) => diagnostic.record view) := by
  -- holding nothing back at the end writes nothing
  have hflush : (Emitter.ofForm .json view).run (.start :: requests ++ [.finish problems]) =
      (Emitter.ofForm .json view).run (.start :: requests ++ [.finish problems, .flush]) := by
    rw [run_append, run_append, run_cons, run_cons, run_cons]
    rfl
  rw [hflush, run_json view problems hinner]
  exact isReport_lines (emissions view requests)

/-- Two diagnostics, the second for another file: a label past a newline, and texts with a quote,
a backslash and a control character. -/
def quotedRequests : List Request :=
  [.setFile ⟨some "a\"b", some "x\ny"⟩,
    .emit ⟨.unknownKey, "key \"k\"", [⟨⟨2, 3⟩, "\\"⟩], ["\x01"], []⟩,
    .setFile ⟨none, none⟩,
    .emit ⟨.emptyValue, "", [⟨⟨0, 4294967295⟩, ""⟩], [], ["a", "b"]⟩]

theorem Emitter.run_json_isReport_quotedRequests :
    (∀ request ∈ quotedRequests, request.IsInner) ∧
      IsReport
        ((Emitter.ofForm .json .unknown).run (.start :: quotedRequests ++ [.finish 2]))
        [⟨"T0004", "error", "key \"k\"", some "a\"b", [⟨2, 3, "\\", some (2, 1)⟩], ["\x01"], []⟩,
          ⟨"T0005", "error", "", none, [⟨0, 4294967295, "", none⟩], [], ["a", "b"]⟩] := by
  have hinner : ∀ request ∈ quotedRequests, request.IsInner := by
    simp [quotedRequests, Request.IsInner]
  have hrecords : ((emissions .unknown quotedRequests).map
        fun (view, diagnostic) => diagnostic.record view) =
      [⟨"T0004", "error", "key \"k\"", some "a\"b", [⟨2, 3, "\\", some (2, 1)⟩], ["\x01"], []⟩,
        ⟨"T0005", "error", "", none, [⟨0, 4294967295, "", none⟩], [], ["a", "b"]⟩] := by
    decide +kernel
  have hreport := Emitter.run_json_isReport .unknown quotedRequests 2 hinner
  rw [hrecords] at hreport
  exact ⟨hinner, hreport⟩

end TagLint
