import TagLint.Render.Emitter

/-!
# Diagnostics as plain text

A diagnostic is read line by line: a head, then a line for each label, note and suggestion
(`Diagnostic.lines`). Its text puts a newline between two lines
(`Diagnostic.toText_eq_intercalate`). A terminal puts one behind every line and an empty line
behind the last (`Terminal.writeAll_diagnostic`), so what it shows without colours, and without
a file to point into, is the text of the diagnostic and two newlines
(`Emitter.output_emit_plain`).
-/

namespace TagLint

namespace Diagnostic

/-- The line of a label, with its span as byte offsets. -/
def labelLine (label : Label) : String := "  --> " ++ label.span.toText ++ ": " ++ label.message

/-- The line of a remark, introduced by a word. -/
def remarkLine (word text : String) : String := "  = " ++ word ++ ": " ++ text

/-- The lines below the head. -/
def details (diagnostic : Diagnostic) : List String :=
  diagnostic.labels.map labelLine ++ diagnostic.notes.map (remarkLine "note") ++
    diagnostic.suggestions.map (remarkLine "help")

/-- All lines of a diagnostic. -/
def lines (diagnostic : Diagnostic) : List String :=
  ("error[" ++ diagnostic.code.toText ++ "]: " ++ diagnostic.message) :: diagnostic.details

end Diagnostic

/-! ## Newlines before, between and behind lines -/

section Newlines

variable (line : String) (lines : List String)

/-- Newlines between lines are newlines before all of them but the first. -/
theorem intercalate_newline :
    "\n".intercalate (line :: lines) = line ++ String.join (lines.map ("\n" ++ ·)) := by
  induction lines generalizing line with
  | nil => simp
  | cons next lines ih =>
    rw [String.intercalate_cons_cons, ih, List.map_cons, String.join_cons]
    simp only [String.append_assoc]

/-- Newlines behind lines are newlines between them and one at the end. -/
theorem join_closed :
    String.join ((line :: lines).map (· ++ "\n")) = "\n".intercalate (line :: lines) ++ "\n" := by
  induction lines generalizing line with
  | nil => simp
  | cons next lines ih =>
    rw [List.map_cons, String.join_cons, ih, String.intercalate_cons_cons]
    simp only [String.append_assoc]

end Newlines

/-! ## Both renderings -/

theorem Diagnostic.toText_eq_intercalate (diagnostic : Diagnostic) :
    diagnostic.toText = "\n".intercalate diagnostic.lines := by
  have hlabel (label : Label) : "\n  --> " ++ label.span.toText ++ ": " ++ label.message =
      "\n" ++ labelLine label := by
    simp only [labelLine, ← String.append_assoc]
    rfl
  have hremark (word text : String) : "\n  = " ++ word ++ ": " ++ text =
      "\n" ++ remarkLine word text := by
    simp only [remarkLine, ← String.append_assoc]
    rfl
  have hnote (text : String) : "\n  = note: " ++ text = "\n" ++ remarkLine "note" text :=
    hremark "note" text
  have hhelp (text : String) : "\n  = help: " ++ text = "\n" ++ remarkLine "help" text :=
    hremark "help" text
  rw [lines, intercalate_newline, details, toText]
  simp only [hlabel, hnote, hhelp, List.map_append, List.map_map, String.join_append,
    ← String.append_assoc]
  rfl

namespace Terminal

theorem writeAll_label (label : Label) :
    Fragment.writeAll false (Terminal.label .unknown label) =
      Diagnostic.labelLine label ++ "\n" := by
  show Fragment.writeAll false (spanLabel .unknown label) = _
  simp [spanLabel, pathPart, FileView.unknown, Diagnostic.labelLine, String.append_assoc]

theorem writeAll_remark (style : Style) (word text : String) :
    Fragment.writeAll false (remark style word text) = Diagnostic.remarkLine word text ++ "\n" := by
  simp [remark, Diagnostic.remarkLine, String.append_assoc]

theorem writeAll_head (code message : String) :
    Fragment.writeAll false [.styled .error "error", .styled .bold ("[" ++ code ++ "]"),
        .plain (": " ++ message ++ "\n")] = "error[" ++ code ++ "]: " ++ message ++ "\n" := by
  apply String.toList_inj.1
  simp

/-- A terminal closes every line of a diagnostic, and then an empty one. -/
theorem writeAll_diagnostic (diagnostic : Diagnostic) :
    Fragment.writeAll false (Terminal.diagnostic .unknown diagnostic) =
      String.join (diagnostic.lines.map (· ++ "\n")) ++ "\n" := by
  rw [Terminal.diagnostic, Diagnostic.lines, Diagnostic.details]
  simp only [Fragment.writeAll_append, Fragment.writeAll_flatMap, writeAll_head, writeAll_label,
    writeAll_remark, List.map_cons, List.map_append, List.map_map, String.join_cons,
    String.join_append, ← String.append_assoc]
  simp [Function.comp_def]

end Terminal

/-- **Plain text.** Without colours and without a file to point into, an emitter shows the text of a
diagnostic and two newlines, whatever it has written before. -/
theorem Emitter.output_emit_plain (begun : Bool) (diagnostic : Diagnostic) :
    output ⟨.human false, .unknown, begun⟩ (.emit diagnostic) = diagnostic.toText ++ "\n\n" := by
  show Fragment.writeAll false (Terminal.diagnostic .unknown diagnostic) = _
  rw [Terminal.writeAll_diagnostic, Diagnostic.lines, join_closed, ← Diagnostic.lines,
    ← Diagnostic.toText_eq_intercalate, String.append_assoc]
  rfl

end TagLint
