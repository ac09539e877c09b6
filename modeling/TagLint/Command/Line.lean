import TagLint.Command.Arguments
import TagLint.Command.Run

/-!
# The command line as a whole

`runLine` takes the arguments of the program to all that comes of them: the exit status,
what goes to the output, and the complaint that goes to the error output.
-/

namespace TagLint

/-- What goes to the error output. -/
inductive Complaint where
  | usage
  | failure (failure : Failure)
deriving DecidableEq, Repr

/-- All that comes of a command line. -/
structure LineResult where
  exit : Nat
  stdout : String
  /-- What goes to the error output, if anything does. -/
  complaint? : Option Complaint
deriving DecidableEq, Repr

/-- Runs the command that some arguments ask for. -/
def runLine (read : String → Option ByteArray) (isTerminal : Bool) (arguments : List String) :
    LineResult :=
  match Command.ofArguments? arguments with
  | none => ⟨exitFailure, "", some .usage⟩
  | some command =>
    match command.run read isTerminal with
    | .ok outcome => ⟨outcome.exit, outcome.stdout, none⟩
    | .error failure => ⟨exitFailure, "", some (.failure failure)⟩

end TagLint
