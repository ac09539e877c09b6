import TagLint.Render.Record

/-!
# Emitters

An emitter turns a sequence of requests into text. It remembers the file that diagnostics
point into and whether it has written a diagnostic yet. On a terminal a run ends with a
summary line; as JSON it is one array, written element by element between the brackets that
`start` and `finish` write.
-/

namespace TagLint

/-- How diagnostics are written. -/
inductive Form where
  /-- For a reader at a terminal, with colours or without. -/
  | human (colors : Bool)
  | json
deriving DecidableEq, Repr

/-- What an emitter is asked to do. -/
inductive Request where
  | start
  /-- Later diagnostics point into this file. -/
  | setFile (view : FileView)
  | emit (diagnostic : Diagnostic)
  /-- Hold nothing back; nothing is ever held back, so this writes nothing. -/
  | flush
  /-- Close the output of a run that found this many problems. -/
  | finish (problems : Nat)
deriving DecidableEq, Repr

/-- An emitter between two requests. -/
structure Emitter where
  form : Form
  view : FileView
  /-- Whether it has written a diagnostic. -/
  begun : Bool
deriving DecidableEq, Repr

namespace Emitter

/-- An emitter that has written nothing. -/
def ofForm (form : Form) (view : FileView) : Emitter := ⟨form, view, false⟩

/-- The text of one diagnostic, apart from what precedes it in a JSON array. -/
def diagnosticText (form : Form) (view : FileView) (diagnostic : Diagnostic) : String :=
  match form with
  | .human colors => Fragment.writeAll colors (Terminal.diagnostic view diagnostic)
  | .json => String.ofList (diagnostic.toJson view).render

/-- What a request makes of the emitter. -/
def next (emitter : Emitter) : Request → Emitter
  | .setFile view => { emitter with view := view }
  | .emit _ => { emitter with begun := true }
  | _ => emitter

/-- What a request writes. -/
def output (emitter : Emitter) : Request → String
  | .start =>
    match emitter.form with
    | .human _ => ""
    | .json => "["
  | .setFile _ => ""
  | .emit diagnostic =>
    let text := diagnosticText emitter.form emitter.view diagnostic
    match emitter.form with
    | .human _ => text
    | .json => (if emitter.begun then ",\n  " else "\n  ") ++ text
  | .flush => ""
  | .finish problems =>
    match emitter.form with
    | .human colors => Fragment.writeAll colors (Terminal.summary problems)
    | .json => if emitter.begun then "\n]\n" else "]\n"

/-- What each of a sequence of requests writes. -/
def outputs (emitter : Emitter) : List Request → List String
  | [] => []
  | request :: requests => emitter.output request :: (emitter.next request).outputs requests

/-- What a sequence of requests writes in all. -/
def run (emitter : Emitter) (requests : List Request) : String :=
  String.join (emitter.outputs requests)

end Emitter

end TagLint
