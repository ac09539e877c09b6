import TagLint.Manifest.Load
import TagLint.Render.Emitter

/-!
# Commands and their outcomes

What can be asked of the linter on its command line, and what comes of it: an exit status
with the text written, or a failure that keeps the command from running.
-/

namespace TagLint

/-- The output formats. -/
inductive OutputFormat where
  | human
  | json
deriving DecidableEq, Repr

/-- How diagnostics are to be written. -/
structure OutputOptions where
  format : OutputFormat
  color : ColorMode
deriving DecidableEq, Repr

/-- The form of an output that is a terminal or not. -/
def OutputOptions.form (options : OutputOptions) (isTerminal : Bool) : Form :=
  match options.format with
  | .human => .human (options.color.resolve isTerminal)
  | .json => .json

/-- What is asked of the linter. -/
inductive Command where
  /-- Check the tags of some manifests. -/
  | check (allow : List String) (options : OutputOptions) (manifests : List String)
  /-- Check one tag; it is without its quotes if `bare`. -/
  | tag (allow : List String) (options : OutputOptions) (bare : Bool) (literal : String)
  /-- Explain a code, or list all codes. -/
  | explain (code? : Option String)
  | version
  | help
deriving DecidableEq, Repr

/-- The result of a command that ran. -/
structure Outcome where
  exit : Nat
  stdout : String
deriving DecidableEq, Repr

/-- Why a command did not run. -/
inductive Failure where
  | load (error : LoadError)
  | unknownCode (text : String)
deriving DecidableEq, Repr

/-- What the failure tells a reader. -/
def Failure.message : Failure → String
  | .load error => error.message
  | .unknownCode text => "unknown error code '" ++ text ++ "'; codes look like T0001"

/-- The exit status of a run that found this many problems. -/
def exitStatus (problems : Nat) : Nat := if problems = 0 then 0 else 1

/-- The exit status of a command that could not run. -/
def exitFailure : Nat := 2

end TagLint
