import TagLint.Command.Basic
import TagLint.Diagnostic.Explanation
import TagLint.Diagnostic.OfProblem

/-!
# Running commands

A command that checks tags is a sequence of requests to one emitter: open the output, name
each file and emit its diagnostics, close the output with the number of problems. Manifests
are loaded before anything is written, so one that cannot be used fails the run with no
output.
-/

namespace TagLint

/-- The requests that report on one manifest. -/
def Manifest.requests (allowed : AllowList) (manifest : Manifest) : List Request :=
  .setFile ⟨some manifest.path, manifest.source?⟩ ::
    (walk allowed manifest.decls).map fun finding => .emit finding.toDiagnostic

/-- How many problems some manifests have. -/
def problemCount (allowed : AllowList) (manifests : List Manifest) : Nat :=
  manifests.foldl (fun count manifest => count + (summarize allowed manifest.decls).problems) 0

/-- The requests that report on some manifests. -/
def checkRequests (allowed : AllowList) (manifests : List Manifest) : List Request :=
  .start :: manifests.flatMap (Manifest.requests allowed) ++
    [.finish (problemCount allowed manifests), .flush]

/-- Checks manifests that are loaded. -/
def checkManifests (allowed : AllowList) (form : Form) (manifests : List Manifest) : Outcome where
  exit := exitStatus (problemCount allowed manifests)
  stdout := (Emitter.ofForm form .unknown).run (checkRequests allowed manifests)

/-- Loads manifests and checks them. -/
def runCheck (read : String → Option ByteArray) (allowed : AllowList) (form : Form)
    (files : List String) : Except LoadError Outcome :=
  (Manifest.loadAll read files).map (checkManifests allowed form)

/-- The problems of a tag given by itself: a literal at the start of its source, or bare
content. -/
def tagProblems (allowed : AllowList) (bare : Bool) (literal : String) : List Problem :=
  if bare then checkContent allowed literal.toList
  else TagLiteral.check allowed ⟨literal, 0⟩

/-- Checks one tag, which is its own source. -/
def runTag (allowed : AllowList) (form : Form) (bare : Bool) (literal : String) : Outcome :=
  let problems := tagProblems allowed bare literal
  let requests := .start :: .setFile ⟨none, some literal⟩ ::
    (problems.map fun problem => .emit problem.toDiagnostic) ++ [.finish problems.length, .flush]
  ⟨exitStatus problems.length, (Emitter.ofForm form .unknown).run requests⟩

/-- The list of all codes with their titles. -/
def codeList : String := page (Code.all.map fun code => code.toText ++ "  " ++ code.title)

/-- Explains a code, or lists all codes if none is given. -/
def runExplain : Option String → Except Failure Outcome
  | none => .ok ⟨0, codeList⟩
  | some text =>
    match Code.ofText? text with
    | some code => .ok ⟨0, code.explanation ++ "\n"⟩
    | none => .error (.unknownCode text)

/-- The program and its version. -/
def versionText : String := "allowtags 0.1.0\n"

/-- How the program is used. -/
def helpText : String := page [
  "Report struct tag keys that are not in an allow-list",
  "",
  "Usage: allowtags <COMMAND>",
  "",
  "Commands:",
  "  check [OPTIONS] <MANIFEST>...  Check every tagged field listed in declaration manifests",
  "  tag [OPTIONS] <LITERAL>        Check a single tag literal",
  "  explain [CODE]                 Show documentation for a diagnostic code",
  "",
  "Options of check and tag:",
  "  --allow-key <KEYS>  Allowed tag key; repeat the option or comma-join keys",
  "  --format <FORMAT>   human or json",
  "  --color <COLOR>     auto, always or never",
  "  --bare              (tag) LITERAL is bare tag content, without surrounding quotes"]

/-- Runs a command; `read` gives the content of a file and `isTerminal` says whether the
output is a terminal. -/
def Command.run (read : String → Option ByteArray) (isTerminal : Bool) :
    Command → Except Failure Outcome
  | .check allow options files =>
    (runCheck read (.ofValues allow) (options.form isTerminal) files).mapError .load
  | .tag allow options bare literal =>
    .ok (runTag (.ofValues allow) (options.form isTerminal) bare literal)
  | .explain code? => runExplain code?
  | .version => .ok ⟨0, versionText⟩
  | .help => .ok ⟨0, helpText⟩

end TagLint
