import TagLint.Command.Line

/-!
# The program

Reads the files that the command line names, runs it, and writes what comes of it.
-/

namespace TagLint

/-- The files that a command reads. -/
def Command.files : Command → List String
  | .check _ _ manifests => manifests
  | _ => []

/-- The content of a file, if it can be read. -/
def readFile? (name : String) : IO (Option ByteArray) := do
  try
    return some (← IO.FS.readBinFile name)
  catch _ =>
    return none

end TagLint

/-- Runs the command line; the exit status is 2 when it cannot be run. -/
def main (arguments : List String) : IO UInt32 := do
  let names := ((TagLint.Command.ofArguments? arguments).map TagLint.Command.files).getD []
  let contents ← names.mapM fun name => return (name, ← TagLint.readFile? name)
  let stdout ← IO.getStdout
  let stderr ← IO.getStderr
  let read := fun name => (contents.lookup name).join
  let result := TagLint.runLine read (← stdout.isTty) arguments
  stdout.putStr result.stdout
  match result.complaint? with
  | none => pure ()
  | some .usage => stderr.putStr TagLint.helpText
  | some (.failure failure) => stderr.putStrLn ("error: " ++ failure.message)
  return UInt32.ofNat result.exit
