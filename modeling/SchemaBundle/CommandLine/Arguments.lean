import SchemaBundle.Options

/-!
# Arguments of the command line

Arguments are read from left to right and the first thing that ends the reading wins: a request for
help, or a fault. An option that takes a value takes what is attached to it or the next argument;
every option and the input may be given once.
-/

namespace SchemaBundle.CommandLine

/-- How values are written. -/
inductive OutputFormat
  | pretty
  | compact
  deriving DecidableEq, Repr

/-- A request to resolve a document. -/
structure ResolveCommand where
  input : String
  /-- Where the document goes, if not to standard output. -/
  output : Option String
  /-- Where the report goes, if it is wanted. -/
  report : Option String
  /-- The location of the input, if not that of its file. -/
  baseUri : Option String
  maxDepth : Nat
  reuseIdentical : Bool
  /-- Whether an unresolved reference is a failure. -/
  strict : Bool
  format : OutputFormat
  deriving DecidableEq, Repr

/-- What help can be about. -/
inductive HelpTopic
  | program
  | resolve
  | help
  deriving DecidableEq, Repr

/-- What ends the reading of arguments without a command. -/
inductive Interruption
  | misuse
  | help (topic : HelpTopic)
  | version
  deriving DecidableEq, Repr

/-! ## What has been read -/

/-- The options that take a value. -/
inductive ValueOption
  | output
  | report
  | baseUri
  | maxDepth
  | format
  deriving DecidableEq, Repr

/-- The options that take none. Verbosity says how much is logged, and the log is left out here. -/
inductive Flag
  | verbose
  | noReuseIdentical
  | strict
  deriving DecidableEq, Repr

/-- The arguments read so far. -/
structure Given where
  input : Option String
  output : Option String
  report : Option String
  baseUri : Option String
  maxDepth : Option Nat
  format : Option OutputFormat
  flags : List Flag

namespace Given

/-- Nothing has been read. -/
def nothing : Given :=
  ⟨none, none, none, none, none, none, []⟩

/-- The path of a file is not empty. -/
def path? (text : String) : Option String :=
  if text = "" then none else some text

/-- One more than the greatest depth limit. -/
def depthBound : Nat := Nat.pow 2 64

/-- Read a depth limit: digits, with or without a plus sign before them. -/
def depth? (text : String) : Option Nat :=
  let digits : List Char :=
    match text.toList with
    | '+' :: rest => rest
    | all => all
  let value : Nat := digits.foldl (fun n c => 10 * n + (c.toNat - '0'.toNat)) 0
  if digits ≠ [] ∧ digits.all Char.isDigit ∧ value < depthBound then some value else none

/-- Read a format. -/
def format? (text : String) : Option OutputFormat :=
  if text = "pretty" then some .pretty
  else if text = "compact" then some .compact
  else none

/-- Fill a place that is still empty. -/
def fill {α : Type} (place value : Option α) : Except Interruption (Option α) :=
  if place.isNone && value.isSome then .ok value else .error .misuse

/-- Take the input. -/
def addInput (given : Given) (text : String) : Except Interruption Given := do
  return { given with input := ← fill given.input (path? text) }

/-- Take the value of an option. -/
def addValue (given : Given) (option : ValueOption) (text : String) :
    Except Interruption Given := do
  match option with
  | .output => return { given with output := ← fill given.output (path? text) }
  | .report => return { given with report := ← fill given.report (path? text) }
  | .baseUri => return { given with baseUri := ← fill given.baseUri (some text) }
  | .maxDepth => return { given with maxDepth := ← fill given.maxDepth (depth? text) }
  | .format => return { given with format := ← fill given.format (format? text) }

/-- Take an option without value. -/
def addFlag (given : Given) (flag : Flag) : Except Interruption Given :=
  if given.flags.contains flag then .error .misuse
  else .ok { given with flags := flag :: given.flags }

/-- The command, once everything is read. Only the input is needed. -/
def command (given : Given) : Except Interruption ResolveCommand :=
  match given.input with
  | none => .error .misuse
  | some input =>
    .ok {
      input
      output := given.output
      report := given.report
      baseUri := given.baseUri
      maxDepth := given.maxDepth.getD Options.default.maxDepth
      reuseIdentical := !given.flags.contains .noReuseIdentical
      strict := given.flags.contains .strict
      format := given.format.getD .pretty }

end Given

/-! ## Reading arguments -/

/-- What an option is, by its long name. -/
inductive LongOption
  | value (option : ValueOption)
  | flag (flag : Flag)
  | help

/-- The option of a long name. -/
def longOption? (name : String) : Option LongOption :=
  if name = "output" then some (.value .output)
  else if name = "report" then some (.value .report)
  else if name = "base-uri" then some (.value .baseUri)
  else if name = "max-depth" then some (.value .maxDepth)
  else if name = "format" then some (.value .format)
  else if name = "verbose" then some (.flag .verbose)
  else if name = "no-reuse-identical" then some (.flag .noReuseIdentical)
  else if name = "strict" then some (.flag .strict)
  else if name = "help" then some .help
  else none

/-- An argument by its form. -/
inductive Argument
  /-- Two dashes and nothing else: all that follows is no option. -/
  | separator
  /-- Two dashes and a name, with or without a value after an equals sign. -/
  | long (name : String) (value : Option String)
  /-- One dash and letters. -/
  | short (letters : List Char)
  | plain (text : String)
  deriving DecidableEq, Repr

/-- The form of an argument. A dash alone is a plain text. -/
def Argument.ofText (text : String) : Argument :=
  match text.toList with
  | ['-', '-'] => .separator
  | '-' :: '-' :: rest =>
    let name := rest.takeWhile (· ≠ '=')
    match rest.dropWhile (· ≠ '=') with
    | _ :: value => .long (String.ofList name) (some (String.ofList value))
    | [] => .long (String.ofList name) none
  | '-' :: c :: rest => .short (c :: rest)
  | _ => .plain text

/-- Read letters behind one dash. If the last one is an option whose value is still to come, the
option is given back. -/
def readLetters : List Char → Given → Except Interruption (Given × Option ValueOption)
  | [], given => .ok (given, none)
  | 'h' :: _, _ => .error (.help .resolve)
  | 'v' :: rest, given => do readLetters rest (← given.addFlag .verbose)
  | ['o'], given => .ok (given, some .output)
  | 'o' :: '=' :: value, given => do
    return (← given.addValue .output (String.ofList value), none)
  | 'o' :: value, given => do return (← given.addValue .output (String.ofList value), none)
  | _ :: _, _ => .error .misuse

/-- Read a long option. If its value is still to come, the option is given back. -/
def readLong (name : String) (value : Option String) (given : Given) :
    Except Interruption (Given × Option ValueOption) :=
  match longOption? name, value with
  | some (.value option), none => .ok (given, some option)
  | some (.value option), some text => do return (← given.addValue option text, none)
  | some (.flag flag), none => do return (← given.addFlag flag, none)
  | some .help, none => .error (.help .resolve)
  | _, _ => .error .misuse

/-- Read one argument that stands where an option may stand. -/
def readArgument (arg : Argument) (given : Given) :
    Except Interruption (Given × Option ValueOption) :=
  match arg with
  | .separator => .error .misuse
  | .long name value => readLong name value given
  | .short letters => readLetters letters given
  | .plain text => do return (← given.addInput text, none)

/-- Read the arguments of the resolve command, with the option whose value comes next, if there is
one. A value that stands alone has not the form of an option. -/
def readArguments : List String → Option ValueOption → Given → Except Interruption Given
  | [], none, given => .ok given
  | [], some _, _ => .error .misuse
  | arg :: rest, some option, given =>
    match Argument.ofText arg with
    | .plain text => do readArguments rest none (← given.addValue option text)
    | _ => .error .misuse
  | arg :: rest, none, given =>
    match Argument.ofText arg with
    | .separator => rest.foldlM Given.addInput given
    | form => do
      let (given, pending) ← readArgument form given
      readArguments rest pending given

/-- Read letters behind one dash before the command, with whether verbosity was asked for. -/
def readProgramLetters : List Char → Bool → Except Interruption Bool
  | [], verbose => .ok verbose
  | 'h' :: _, _ => .error (.help .program)
  | 'V' :: _, _ => .error .version
  | 'v' :: rest, verbose => if verbose then .error .misuse else readProgramLetters rest true
  | _ :: _, _ => .error .misuse

/-- What the arguments of the help command ask for. -/
def helpTopic? : List String → Option HelpTopic
  | [] => some .program
  | ["resolve"] => some .resolve
  | ["help"] => some .help
  | _ => none

/-- Read arguments that stand before the command, with whether verbosity was asked for. -/
def readProgramArguments : List String → Bool → Except Interruption ResolveCommand
  | [], _ => .error .misuse
  | arg :: rest, verbose =>
    match Argument.ofText arg with
    | .plain "resolve" => do (← readArguments rest none .nothing).command
    | .plain "help" => .error ((helpTopic? rest).elim .misuse .help)
    | .long "help" none => .error (.help .program)
    | .long "version" none => .error .version
    | .long "verbose" none =>
      if verbose then .error .misuse else readProgramArguments rest true
    | .short letters => do readProgramArguments rest (← readProgramLetters letters verbose)
    | _ => .error .misuse

/-- The command that the arguments of the program give. -/
def readCommand (args : List String) : Except Interruption ResolveCommand :=
  readProgramArguments args false

end SchemaBundle.CommandLine
