import Mathlib.Tactic.Common
import TagLint.Command.Run
import TagLint.Proofs.Lint.Counts

/-!
# Reports on several manifests

One emitter serves a whole run, and it remembers what came before: the file that it was last
told of, and whether the array it writes has a record yet. Still a run says of each manifest
what a new emitter would say of that manifest alone.

- On a terminal what is written depends on the file alone, and each manifest begins by
  naming its own.
- As JSON the text so far is the opening of an array of the records so far. Each request
  keeps this (`Emitter.Holds`), whatever manifest it belongs to.

The count that closes a run comes from the walk and not from the emitter. It is the number of
diagnostics that were emitted (`problemCount_eq`), and a reader gets it in a line of its own
(`writeAll_summary`), which a run without problems does not have.
-/

namespace TagLint

variable {allowed : AllowList} {colors : Bool} {emitter : Emitter}

/-! ## What a manifest has to report -/

/-- The note that names a field and its type. -/
def fieldNote (decl : TypeDecl) (field : FieldDecl) : String :=
  "in field `" ++ field.name?.getD "_" ++ "` of `" ++ decl.name?.getD "<anonymous>" ++ "`"

/-- What is reported of a problem in the tag of a field, part by part. -/
def Problem.inField (problem : Problem) (decl : TypeDecl) (field : FieldDecl) : Diagnostic where
  code := problem.kind.code
  message := problem.kind.message
  labels := [⟨problem.labelSpan, problem.labelMessage⟩]
  notes := [fieldNote decl field]
  suggestions := [problem.suggestion]

theorem Finding.toDiagnostic_eq (finding : Finding) :
    finding.toDiagnostic = finding.problem.inField finding.place.decl finding.place.field := rfl

namespace Manifest

/-- The file that the diagnostics of a manifest point into. -/
def view (manifest : Manifest) : FileView := ⟨some manifest.path, manifest.source?⟩

/-- The diagnostics of a manifest: every problem of the tag of every field of every type. -/
def diagnostics (allowed : AllowList) (manifest : Manifest) : List Diagnostic :=
  manifest.decls.flatMap fun decl =>
    decl.fields.flatMap fun field =>
      field.tag?.toList.flatMap fun tag =>
        (tag.check allowed).map fun problem => problem.inField decl field

/-- The diagnostics of a manifest as JSON records. -/
def records (allowed : AllowList) (manifest : Manifest) : List Json :=
  (manifest.diagnostics allowed).map (Diagnostic.toJson manifest.view)

/-- What a new emitter that points into the file of a manifest writes for a terminal. -/
def report (allowed : AllowList) (colors : Bool) (manifest : Manifest) : String :=
  (Emitter.ofForm (.human colors) manifest.view).run
    ((manifest.diagnostics allowed).map Request.emit)

/-- Some tag of the manifest has a problem. -/
def HasProblem (allowed : AllowList) (manifest : Manifest) : Prop :=
  ∃ decl ∈ manifest.decls, ∃ field ∈ decl.fields, ∃ tag ∈ field.tag?, tag.check allowed ≠ []

theorem hasProblem_iff (manifest : Manifest) :
    manifest.HasProblem allowed ↔ manifest.diagnostics allowed ≠ [] := by
  simp [HasProblem, diagnostics]

end Manifest

theorem TypeDecl.map_findings (decl : TypeDecl) :
    (decl.taggedFields.flatMap (TaggedField.findings allowed)).map Finding.toDiagnostic =
      decl.fields.flatMap fun field =>
        field.tag?.toList.flatMap fun tag =>
          (tag.check allowed).map fun problem => problem.inField decl field := by
  rw [decl.taggedFields_eq, List.flatMap_assoc, List.map_flatMap]
  simp only [List.flatMap_map, List.map_flatMap, TaggedField.findings, List.map_map,
    Function.comp_def, Finding.toDiagnostic_eq]

namespace Manifest

/-- The walk finds the problems of each tag where the tag stands. -/
theorem map_walk (manifest : Manifest) :
    (walk allowed manifest.decls).map Finding.toDiagnostic = manifest.diagnostics allowed := by
  unfold walk taggedFields diagnostics
  rw [List.flatMap_assoc, List.map_flatMap]
  simp only [TypeDecl.map_findings]

theorem requests_eq (manifest : Manifest) :
    manifest.requests allowed =
      .setFile manifest.view :: (manifest.diagnostics allowed).map .emit := by
  rw [← map_walk, List.map_map]
  rfl

theorem problems_eq (manifest : Manifest) :
    (summarize allowed manifest.decls).problems = (manifest.diagnostics allowed).length := by
  rw [summarize_eq, ← map_walk, List.length_map]

end Manifest

theorem problemCount_eq (manifests : List Manifest) :
    problemCount allowed manifests =
      (manifests.flatMap (Manifest.diagnostics allowed)).length := by
  have hfold (count : Nat) :
      manifests.foldl
          (fun count manifest => count + (summarize allowed manifest.decls).problems) count =
        count + (manifests.flatMap (Manifest.diagnostics allowed)).length := by
    induction manifests generalizing count with
    | nil => rfl
    | cons manifest manifests ih =>
      rw [List.foldl_cons, ih, manifest.problems_eq, List.flatMap_cons, List.length_append,
        Nat.add_assoc]
  rw [problemCount, hfold, Nat.zero_add]

/-- The diagnostic that a request asks for. -/
def Request.diagnostic? : Request → Option Diagnostic
  | .emit diagnostic => some diagnostic
  | _ => none

theorem emitted_requests (manifest : Manifest) :
    (manifest.requests allowed).filterMap Request.diagnostic? = manifest.diagnostics allowed := by
  rw [manifest.requests_eq, List.filterMap_cons_none rfl, List.filterMap_map]
  exact List.filterMap_some

theorem emitted_checkRequests (manifests : List Manifest) :
    (checkRequests allowed manifests).filterMap Request.diagnostic? =
      manifests.flatMap (Manifest.diagnostics allowed) := by
  unfold checkRequests
  rw [List.cons_append, List.filterMap_cons_none rfl, List.filterMap_append]
  rw [List.filterMap_flatMap]
  simp [emitted_requests, Request.diagnostic?]

/-! ## Runs of an emitter -/

namespace Emitter

/-- The emitter after a sequence of requests. -/
def after (emitter : Emitter) (requests : List Request) : Emitter := requests.foldl next emitter

@[simp] theorem run_nil : emitter.run [] = "" := rfl

@[simp] theorem run_cons (request : Request) (requests : List Request) :
    emitter.run (request :: requests) =
      emitter.output request ++ (emitter.next request).run requests :=
  String.join_cons

theorem run_setFile (view : FileView) (requests : List Request) :
    emitter.run (.setFile view :: requests) = (emitter.next (.setFile view)).run requests := by
  rw [run_cons]
  exact String.empty_append

theorem run_append (first second : List Request) :
    emitter.run (first ++ second) = emitter.run first ++ (emitter.after first).run second := by
  induction first generalizing emitter with
  | nil => simp [after]
  | cons request requests ih =>
    rw [List.cons_append, run_cons, run_cons, ih, String.append_assoc]
    rfl

/-- A run from the opening of the output on. -/
theorem run_start (requests closing : List Request) :
    emitter.run (.start :: requests ++ closing) =
      emitter.output .start ++ emitter.run requests ++ (emitter.after requests).run closing := by
  rw [run_append, run_cons]
  rfl

@[simp] theorem next_form (request : Request) : (emitter.next request).form = emitter.form := by
  cases request <;> rfl

theorem after_form (requests : List Request) :
    (emitter.after requests).form = emitter.form := by
  induction requests generalizing emitter with
  | nil => rfl
  | cons request requests ih => exact ih.trans (next_form request)

/-- On a terminal what a request writes depends on the file alone. -/
theorem run_congr {other : Emitter} (hform : emitter.form = .human colors)
    (hother : other.form = .human colors) (hview : emitter.view = other.view)
    (requests : List Request) : emitter.run requests = other.run requests := by
  induction requests generalizing emitter other with
  | nil => rfl
  | cons request requests ih =>
    -- whether a record was written yet matters to an array only
    have hnext : (emitter.next request).view = (other.next request).view := by
      cases request <;> first | exact hview | rfl
    have houtput : emitter.output request = other.output request := by
      cases request <;> simp only [output, hform, hother, hview]
    rw [run_cons, run_cons, houtput]
    rw [ih ((next_form request).trans hform) ((next_form request).trans hother) hnext]

/-- Nothing is left of the manifests before: a manifest starts by naming its file. -/
theorem run_requests (hform : emitter.form = .human colors) (manifest : Manifest) :
    emitter.run (manifest.requests allowed) = manifest.report allowed colors := by
  rw [manifest.requests_eq, run_setFile, Manifest.report]
  apply run_congr
  · exact hform
  · rfl
  · rfl

theorem run_manifests (hform : emitter.form = .human colors) (manifests : List Manifest) :
    emitter.run (manifests.flatMap (Manifest.requests allowed)) =
      String.join (manifests.map (Manifest.report allowed colors)) := by
  induction manifests generalizing emitter with
  | nil => rfl
  | cons manifest manifests ih =>
    rw [List.flatMap_cons, run_append, run_requests hform, List.map_cons, String.join_cons]
    rw [ih ((after_form _).trans hform)]

end Emitter

/-! ## Records in an array -/

namespace Json

/-- An array that is not closed yet, with a line for each record. -/
def opening (records : List Json) : String :=
  if records = [] then "["
  else
    "[\n  " ++ String.intercalate ",\n  " (records.map fun record => String.ofList record.render)

/-- An array with a line for each record. -/
def lines (records : List Json) : String :=
  opening records ++ if records = [] then "]\n" else "\n]\n"

theorem opening_concat (records : List Json) (record : Json) :
    opening (records ++ [record]) =
      opening records ++ (if records = [] then "\n  " else ",\n  ") ++
        String.ofList record.render := by
  by_cases hempty : records = []
  · simp [opening, hempty]
  · have hmap : records.map (fun record => String.ofList record.render) ≠ [] :=
      mt List.map_eq_nil_iff.1 hempty
    simp only [opening, hempty, List.append_eq_nil_iff, List.map_append, List.map_cons,
      List.map_nil, false_and, if_false]
    rw [String.intercalate_append_of_ne_nil hmap (List.cons_ne_nil _ _),
      String.intercalate_singleton]
    simp only [String.append_assoc]

theorem lines_eq_iff (records : List Json) : lines records = "[]\n" ↔ records = [] := by
  constructor
  · intro h
    by_contra hempty
    have hlist := congrArg String.toList h
    simp [lines, opening, hempty] at hlist
  · rintro rfl
    rfl

end Json

/-- A request that may stand between the first and the last one of a run. -/
def Request.IsInner : Request → Prop
  | .start | .finish _ => False
  | .setFile _ | .emit _ | .flush => True

/-- The diagnostics that are emitted, each with the file that was last set. -/
def emissions (view : FileView) : List Request → List (FileView × Diagnostic)
  | [] => []
  | .setFile view :: requests => emissions view requests
  | .emit diagnostic :: requests => (view, diagnostic) :: emissions view requests
  | _ :: requests => emissions view requests

/-- The JSON records of some diagnostics, each with its file. -/
def emittedRecords (emitted : List (FileView × Diagnostic)) : List Json :=
  emitted.map fun (view, diagnostic) => diagnostic.toJson view

theorem emissions_emits (view : FileView) (diagnostics : List Diagnostic) (later : List Request) :
    emissions view (diagnostics.map .emit ++ later) =
      diagnostics.map (view, ·) ++ emissions view later := by
  induction diagnostics with
  | nil => rfl
  | cons diagnostic diagnostics ih =>
    rw [List.map_cons, List.cons_append, emissions, ih]
    rfl

theorem emittedRecords_emits (view : FileView) (diagnostics : List Diagnostic) :
    emittedRecords (emissions view (diagnostics.map .emit)) =
      diagnostics.map (Diagnostic.toJson view) := by
  have hemits := emissions_emits view diagnostics []
  rw [List.append_nil] at hemits
  simp [hemits, emissions, emittedRecords]

/-- A manifest starts by naming its file, so its records do not depend on what came before. -/
theorem emittedRecords_manifests (view : FileView) (manifests : List Manifest) :
    emittedRecords (emissions view (manifests.flatMap (Manifest.requests allowed))) =
      manifests.flatMap (Manifest.records allowed) := by
  induction manifests generalizing view with
  | nil => rfl
  | cons manifest manifests ih =>
    rw [List.flatMap_cons, manifest.requests_eq, List.cons_append, emissions, emissions_emits,
      List.flatMap_cons, ← ih manifest.view]
    simp [emittedRecords, Manifest.records]

theorem isInner_requests (manifest : Manifest) :
    ∀ request ∈ manifest.requests allowed, request.IsInner := by
  rw [manifest.requests_eq]
  simp [Request.IsInner]

/-- An emitter that has opened an array, put some records into it and written no more than
this text. -/
structure Emitter.Holds (emitter : Emitter) (records : List Json) (text : String) : Prop where
  form : emitter.form = .json
  begun : emitter.begun = true ↔ records ≠ []
  text : text = Json.opening records

namespace Emitter.Holds

variable {records : List Json} {text : String}

theorem start (view : FileView) :
    (ofForm .json view).Holds [] ((ofForm .json view).output .start) where
  form := rfl
  begun := by simp [ofForm]
  text := rfl

theorem setFile (h : emitter.Holds records text) (view : FileView) :
    (emitter.next (.setFile view)).Holds records text :=
  ⟨h.form, h.begun, h.text⟩

theorem emit (h : emitter.Holds records text) (diagnostic : Diagnostic) :
    (emitter.next (.emit diagnostic)).Holds (records ++ [diagnostic.toJson emitter.view])
      (text ++ emitter.output (.emit diagnostic)) where
  form := h.form
  begun := by simp [next]
  text := by
    rw [Json.opening_concat, h.text, String.append_assoc]
    -- the separator is chosen by the memory of the emitter here and by the records there
    by_cases hempty : records = []
    · have hbegun : emitter.begun = false := by simpa [hempty] using h.begun
      simp only [output, h.form, hbegun, hempty, diagnosticText]
      simp
    · have hbegun : emitter.begun = true := h.begun.2 hempty
      simp only [output, h.form, hbegun, hempty, diagnosticText]
      simp

/-- Each request of a run puts into the array what it asks to emit, and nothing else. -/
theorem run {requests : List Request} (h : emitter.Holds records text)
    (hinner : ∀ request ∈ requests, request.IsInner) :
    (emitter.after requests).Holds (records ++ emittedRecords (emissions emitter.view requests))
      (text ++ emitter.run requests) := by
  induction requests generalizing emitter records text with
  | nil => simpa [after, emissions, emittedRecords] using h
  | cons request requests ih =>
    obtain ⟨hrequest, hlater⟩ := List.forall_mem_cons.1 hinner
    rw [run_cons, ← String.append_assoc]
    cases request with
    | start | finish => exact hrequest.elim
    | setFile view =>
      -- nothing is written, and the records so far stay as they are
      show ((emitter.next (.setFile view)).after requests).Holds _ (text ++ "" ++ _)
      rw [String.append_empty]
      exact ih (h.setFile view) hlater
    | flush =>
      show (emitter.after requests).Holds _ (text ++ "" ++ _)
      rw [String.append_empty]
      exact ih h hlater
    | emit diagnostic =>
      have hnext := ih (h.emit diagnostic) hlater
      rwa [List.append_assoc] at hnext

theorem finish (h : emitter.Holds records text) (problems : Nat) :
    text ++ emitter.run [.finish problems, .flush] = Json.lines records := by
  rw [Json.lines, ← h.text, run_cons, run_cons, run_nil]
  by_cases hempty : records = []
  · have hbegun : emitter.begun = false := by simpa [hempty] using h.begun
    simp [output, h.form, hbegun, hempty]
  · simp [output, h.form, h.begun.2 hempty, hempty]

end Emitter.Holds

/-- A run as JSON writes an array with a line for each diagnostic that it emits. -/
theorem Emitter.run_json (view : FileView) (problems : Nat) {requests : List Request}
    (hinner : ∀ request ∈ requests, request.IsInner) :
    (Emitter.ofForm .json view).run (.start :: requests ++ [.finish problems, .flush]) =
      Json.lines (emittedRecords (emissions view requests)) := by
  rw [run_start]
  exact ((Holds.start view).run hinner).finish problems

/-! ## The closing line -/

/-- The word that the closing line begins with, in bold red where there are colours. -/
def errorWord (colors : Bool) : String := if colors then "\x1b[1;31merror\x1b[0m" else "error"

/-- The line that closes a run with so many problems, if there are any. -/
def closingLine (colors : Bool) : Nat → String
  | 0 => ""
  | 1 => errorWord colors ++ ": 1 tag problem found\n"
  | count => errorWord colors ++ ": " ++ Nat.repr count ++ " tag problems found\n"

theorem writeAll_summary (problems : Nat) :
    Fragment.writeAll colors (Terminal.summary problems) = closingLine colors problems := by
  have hword : (Fragment.styled .error "error").write colors = errorWord colors := by
    cases colors <;> rfl
  match problems with
  | 0 => rfl
  | 1 => cases colors <;> rfl
  | count + 2 => simp [Terminal.summary, closingLine, hword, String.append_assoc]

theorem closingLine_eq_empty_iff (problems : Nat) :
    closingLine colors problems = "" ↔ problems = 0 := by
  have hword : errorWord colors ≠ "" := by cases colors <;> decide
  match problems with
  | 0 => simp [closingLine]
  | 1 => simp [closingLine, String.append_eq_empty_iff]
  | count + 2 => simp [closingLine, String.append_eq_empty_iff, hword]

/-! ## The outcome of a run -/

/-- A run over manifests is the concatenation of what each manifest has to report. -/
structure RunConcatenates (allowed : AllowList) (manifests : List Manifest) : Prop where
  diagnostics : (checkRequests allowed manifests).filterMap Request.diagnostic? =
    manifests.flatMap (Manifest.diagnostics allowed)
  /-- The walks count as many problems as there are diagnostics emitted. -/
  counted : problemCount allowed manifests =
    ((checkRequests allowed manifests).filterMap Request.diagnostic?).length
  /-- The reports, one after the other, and then the number of diagnostics if there are any. -/
  human : ∀ colors, (checkManifests allowed (.human colors) manifests).stdout =
    String.join (manifests.map (Manifest.report allowed colors)) ++
      closingLine colors (manifests.flatMap (Manifest.diagnostics allowed)).length
  json : (checkManifests allowed .json manifests).stdout =
    Json.lines (manifests.flatMap (Manifest.records allowed))
  /-- The records of a manifest are those that a new emitter writes for it alone. -/
  json_alone : ∀ manifest ∈ manifests, ∀ problems, (Emitter.ofForm .json manifest.view).run
      (.start :: (manifest.diagnostics allowed).map .emit ++ [.finish problems, .flush]) =
    Json.lines (manifest.records allowed)
  exit_le : ∀ form, (checkManifests allowed form manifests).exit ≤ 1
  exit : ∀ form, (checkManifests allowed form manifests).exit = 1 ↔
    ∃ manifest ∈ manifests, manifest.HasProblem allowed
  exit_human : ∀ colors, (checkManifests allowed (.human colors) manifests).exit = 1 ↔
    (checkManifests allowed (.human colors) manifests).stdout ≠ ""
  exit_json : (checkManifests allowed .json manifests).exit = 1 ↔
    (checkManifests allowed .json manifests).stdout ≠ "[]\n"

theorem exitStatus_le (problems : Nat) : exitStatus problems ≤ 1 := by
  unfold exitStatus
  split <;> decide

theorem exitStatus_eq_one_iff (problems : Nat) : exitStatus problems = 1 ↔ problems ≠ 0 := by
  unfold exitStatus
  split <;> simp [*]

section Outcome

variable (manifests : List Manifest)

theorem stdout_human :
    (checkManifests allowed (.human colors) manifests).stdout =
      String.join (manifests.map (Manifest.report allowed colors)) ++
        closingLine colors (manifests.flatMap (Manifest.diagnostics allowed)).length := by
  show (Emitter.ofForm (.human colors) .unknown).run (checkRequests allowed manifests) = _
  have hform : (Emitter.ofForm (.human colors) .unknown).form = .human colors := rfl
  have hopen : (Emitter.ofForm (.human colors) .unknown).output .start = "" := rfl
  -- how the output closes depends on the form alone, and no request changes that
  have hafter := (Emitter.after_form (manifests.flatMap (Manifest.requests allowed))).trans hform
  rw [checkRequests, Emitter.run_start, problemCount_eq, Emitter.run_manifests hform, hopen,
    String.empty_append, Emitter.run_cons, Emitter.run_cons, Emitter.run_nil]
  simp only [Emitter.output, hafter, String.append_empty, writeAll_summary]

theorem stdout_json :
    (checkManifests allowed .json manifests).stdout =
      Json.lines (manifests.flatMap (Manifest.records allowed)) := by
  show (Emitter.ofForm .json .unknown).run (checkRequests allowed manifests) = _
  have hinner : ∀ request ∈ manifests.flatMap (Manifest.requests allowed), request.IsInner := by
    intro request hrequest
    obtain ⟨manifest, -, hmem⟩ := List.mem_flatMap.1 hrequest
    exact isInner_requests manifest request hmem
  rw [checkRequests, Emitter.run_json .unknown _ hinner, emittedRecords_manifests]

theorem stdout_json_alone (manifest : Manifest) (problems : Nat) :
    (Emitter.ofForm .json manifest.view).run
        (.start :: (manifest.diagnostics allowed).map .emit ++ [.finish problems, .flush]) =
      Json.lines (manifest.records allowed) := by
  have hinner : ∀ request ∈ (manifest.diagnostics allowed).map Request.emit, request.IsInner := by
    simp [Request.IsInner]
  rw [Emitter.run_json manifest.view problems hinner, emittedRecords_emits]
  rfl

theorem exit_checkManifests (form : Form) :
    (checkManifests allowed form manifests).exit = 1 ↔
      manifests.flatMap (Manifest.diagnostics allowed) ≠ [] := by
  show exitStatus (problemCount allowed manifests) = 1 ↔ _
  rw [exitStatus_eq_one_iff, problemCount_eq, Ne, List.length_eq_zero_iff]

/-- A run without problems writes nothing at all, and any other run writes its closing line. -/
theorem stdout_human_eq_empty_iff :
    (checkManifests allowed (.human colors) manifests).stdout = "" ↔
      manifests.flatMap (Manifest.diagnostics allowed) = [] := by
  rw [stdout_human, String.append_eq_empty_iff, closingLine_eq_empty_iff, List.length_eq_zero_iff]
  refine ⟨And.right, ?_⟩
  intro hclean
  refine ⟨?_, hclean⟩
  induction manifests with
  | nil => rfl
  | cons manifest manifests ih =>
    rw [List.flatMap_cons, List.append_eq_nil_iff] at hclean
    rw [List.map_cons, String.join_cons, ih hclean.2, Manifest.report, hclean.1]
    rfl

theorem checkManifests_concatenates (allowed : AllowList) (manifests : List Manifest) :
    RunConcatenates allowed manifests where
  diagnostics := emitted_checkRequests manifests
  counted := by rw [emitted_checkRequests, problemCount_eq]
  human _ := stdout_human manifests
  json := stdout_json manifests
  json_alone manifest _ problems := stdout_json_alone manifest problems
  exit_le _ := exitStatus_le _
  exit form := by
    rw [exit_checkManifests]
    simp [Manifest.hasProblem_iff]
  exit_human colors := by
    rw [exit_checkManifests, Ne, Ne, stdout_human_eq_empty_iff]
  exit_json := by
    rw [exit_checkManifests, stdout_json, Ne, Ne, Json.lines_eq_iff]
    simp [Manifest.records]

/-- Two manifests with a problem each. The first has its source and a field without a tag; the
second has neither a source nor names. -/
def twoManifests : List Manifest := [
  ⟨"a.go", some "type T struct \x7b\n\tA int\n\tB int `xml:\"b\"`\n\x7d\n",
    [⟨some "T", 5, [⟨some "A", 17, none⟩, ⟨some "B", 24, some ⟨"`xml:\"b\"`", 30⟩⟩]⟩]⟩,
  ⟨"b.go", none, [⟨none, 0, [⟨none, 9, some ⟨"`id:x`", 9⟩⟩]⟩]⟩]

example : (checkManifests (.ofValues ["id"]) (.human false) twoManifests).stdout = String.join [
    "error[T0004]: unknown tag key 'xml'\n",
    " --> a.go:3:9\n",
    "  |\n",
    "3 | \tB int `xml:\"b\"`\n",
    "  | \t       ^^^ not in the allow-list\n",
    "  = note: in field `B` of `T`\n",
    "  = help: pass `--allow-key xml` to accept it\n",
    "\n",
    "error[T0006]: tag values should be quoted\n",
    "  --> b.go@13..13: value should start with '\"'\n",
    "  = note: in field `_` of `<anonymous>`\n",
    "  = help: quote the value, as in `key:\"value\"`\n",
    "\n",
    "error: 2 tag problems found\n"] := by
  decide +kernel

example : (checkManifests (.ofValues ["id"]) .json twoManifests).stdout = String.join [
    "[\n",
    "  \x7b\"code\":\"T0004\",\"file\":\"a.go\",",
    "\"labels\":[\x7b\"column\":9,\"end\":34,\"line\":3,",
    "\"message\":\"not in the allow-list\",\"start\":31\x7d],",
    "\"message\":\"unknown tag key 'xml'\",\"notes\":[\"in field `B` of `T`\"],",
    "\"severity\":\"error\",\"suggestions\":[\"pass `--allow-key xml` to accept it\"]\x7d,\n",
    "  \x7b\"code\":\"T0006\",\"file\":\"b.go\",",
    "\"labels\":[\x7b\"end\":13,\"message\":\"value should start with '\\\"'\",\"start\":13\x7d],",
    "\"message\":\"tag values should be quoted\",\"notes\":[\"in field `_` of `<anonymous>`\"],",
    "\"severity\":\"error\",\"suggestions\":[\"quote the value, as in `key:\\\"value\\\"`\"]\x7d\n",
    "]\n"] := by
  decide +kernel

end Outcome

end TagLint
