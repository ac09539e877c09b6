import TagLint.Command.Basic

/-!
# Reading the command line

Arguments are read from left to right by the grammar of the command at hand. An option takes
its value from the same argument after `=`, or from the next argument, which must then be a
text and not an option. An argument that starts with a hyphen is a text only where the
grammar awaits a positional argument that may, and only if it is no option that exists
(`isText`). The argument `--` makes all that follows positional. Reading ends at the first
argument that does not fit (`none`), and also at the first that asks for help, whatever
comes after it.
-/

namespace TagLint

namespace Arguments

/-- The options that take a value. -/
inductive Valued where
  | allowKey
  | format
  | color
deriving DecidableEq, Repr

/-- What a command accepts. -/
structure Grammar where
  /-- The options with a value, by name. -/
  valued : List (String × Valued)
  /-- Whether the flag `--bare` is accepted. -/
  bare : Bool
  /-- The greatest number of positional arguments, if there is one. -/
  limit? : Option Nat
  /-- Whether a positional argument may be empty. -/
  empty : Bool
  /-- Whether a text may look like an option that does not exist, up to the first positional
  argument. -/
  hyphenated : Bool
deriving DecidableEq, Repr

/-- What the arguments up to some point have chosen. -/
structure Choices where
  /-- The values of `--allow-key`, in order. -/
  allow : List String
  format? : Option OutputFormat
  color? : Option ColorMode
  bare : Bool
  /-- The positional arguments, in order. -/
  words : List String
deriving DecidableEq, Repr

namespace Choices

/-- Nothing chosen. -/
def nothing : Choices := ⟨[], none, none, false, []⟩

/-- The output options, with their defaults. -/
def output (choices : Choices) : OutputOptions :=
  ⟨choices.format?.getD .human, choices.color?.getD .auto⟩

/-- Chooses the value of an option; a format and a color can be chosen once. -/
def set? (choices : Choices) (value : String) : Valued → Option Choices
  | .allowKey => some { choices with allow := choices.allow ++ [value] }
  | .format =>
    if choices.format?.isSome then none
    else
      ([("human", OutputFormat.human), ("json", .json)].lookup value).map fun format =>
        { choices with format? := some format }
  | .color =>
    if choices.color?.isSome then none
    else
      ([("auto", ColorMode.auto), ("always", .always), ("never", .never)].lookup value).map
        fun color => { choices with color? := some color }

/-- Chooses `--bare`, which can be done once. -/
def setBare? (choices : Choices) : Option Choices :=
  if choices.bare then none else some { choices with bare := true }

/-- Adds a positional argument, if the grammar has room for it. -/
def addWord? (grammar : Grammar) (choices : Choices) (word : String) : Option Choices :=
  let room := match grammar.limit? with
    | some limit => choices.words.length < limit
    | none => true
  if room && (grammar.empty || !word.isEmpty) then
    some { choices with words := choices.words ++ [word] }
  else none

end Choices

/-- How an argument looks. -/
inductive Shape where
  | separator
  /-- `--name`, perhaps with `=value`. -/
  | long (name : String) (value? : Option String)
  | short (letters : List Char)
  | word
deriving DecidableEq, Repr

/-- The name before the first `=` and the value after it. -/
def splitAtEquals (cs : List Char) : String × Option String :=
  match cs.dropWhile (· != '=') with
  | [] => (String.ofList cs, none)
  | _ :: value => (String.ofList (cs.takeWhile (· != '=')), some (String.ofList value))

/-- How an argument looks; a hyphen alone is a word. -/
def Shape.of (argument : String) : Shape :=
  match argument.toList with
  | ['-', '-'] => .separator
  | '-' :: '-' :: cs =>
    let (name, value?) := splitAtEquals cs
    .long name value?
  | '-' :: c :: cs => .short (c :: cs)
  | _ => .word

/-- Whether an option of this name exists. -/
def Grammar.knows (grammar : Grammar) (name : String) : Bool :=
  (grammar.valued.lookup name).isSome || (grammar.bare && name == "bare") || name == "help"

/-- Whether an argument is a text, to be taken as a value or a positional argument, and not
an option. Where `hyphenated` texts are allowed, all that is no existing option is a text;
the letter `h` is the one short option. -/
def isText (grammar : Grammar) (hyphenated : Bool) (argument : String) : Bool :=
  match Shape.of argument with
  | .separator => false
  | .long name _ => hyphenated && !grammar.knows name
  | .short letters => hyphenated && letters.any (· != 'h')
  | .word => true

/-- What reading some arguments comes to. -/
inductive Reading where
  | help
  | complete (choices : Choices)
deriving DecidableEq, Repr

/-- Reads arguments onto what was chosen before them. -/
def read? (grammar : Grammar) (choices : Choices) : List String → Option Reading
  | [] => some (.complete choices)
  | argument :: rest =>
    let hyphenated := grammar.hyphenated && choices.words.isEmpty
    if isText grammar hyphenated argument then
      (choices.addWord? grammar argument).bind fun choices => read? grammar choices rest
    else
      match Shape.of argument with
      | .separator => (rest.foldlM (Choices.addWord? grammar) choices).map .complete
      | .short letters => if letters.head? = some 'h' then some .help else none
      | .word => none
      | .long name value? =>
        match grammar.valued.lookup name, value? with
        | some option, some value =>
          (choices.set? value option).bind fun choices => read? grammar choices rest
        | some option, none =>
          match rest with
          | [] => none
          | value :: rest =>
            if isText grammar hyphenated value then
              (choices.set? value option).bind fun choices => read? grammar choices rest
            else none
        | none, some _ => none
        | none, none =>
          if name = "help" then some .help
          else if grammar.bare && name == "bare" then
            choices.setBare?.bind fun choices => read? grammar choices rest
          else none

/-- The options of the commands that write diagnostics. -/
def outputOptions : List (String × Valued) :=
  [("allow-key", .allowKey), ("format", .format), ("color", .color)]

/-- The grammar of `check`: any number of manifests, none of them unnamed. -/
def checkGrammar : Grammar := ⟨outputOptions, false, none, false, false⟩

/-- The grammar of `tag`: one literal, which may start with a hyphen. -/
def tagGrammar : Grammar := ⟨outputOptions, true, some 1, true, true⟩

/-- The grammar of `explain`: at most one code. -/
def explainGrammar : Grammar := ⟨[], false, some 1, true, false⟩

/-- `check` needs at least one manifest. -/
def check? (choices : Choices) : Option Command :=
  if choices.words.isEmpty then none
  else some (.check choices.allow choices.output choices.words)

/-- `tag` needs its literal. -/
def tag? (choices : Choices) : Option Command :=
  choices.words.head?.map (.tag choices.allow choices.output choices.bare)

/-- `explain` needs nothing. -/
def explain? (choices : Choices) : Option Command := some (.explain choices.words.head?)

/-- The command that arguments of a grammar mean; asking for help is a command too. -/
def meaning? (grammar : Grammar) (meaning : Choices → Option Command) (arguments : List String) :
    Option Command :=
  match read? grammar .nothing arguments with
  | some .help => some .help
  | some (.complete choices) => meaning choices
  | none => none

end Arguments

/-- The names of the commands. -/
def Command.names : List String := ["check", "tag", "explain", "help"]

/-- The command that a command line asks for. After `help` at most one more argument may
follow, the name of a command. -/
def Command.ofArguments? : List String → Option Command
  | [] => none
  | "check" :: rest => Arguments.meaning? Arguments.checkGrammar Arguments.check? rest
  | "tag" :: rest => Arguments.meaning? Arguments.tagGrammar Arguments.tag? rest
  | "explain" :: rest => Arguments.meaning? Arguments.explainGrammar Arguments.explain? rest
  | ["help"] => some .help
  | ["help", name] => if names.contains name then some .help else none
  | first :: _ =>
    match Arguments.Shape.of first with
    | .long "version" none => some .version
    | .long "help" none => some .help
    | .short ('V' :: _) => some .version
    | .short ('h' :: _) => some .help
    | _ => none

end TagLint
