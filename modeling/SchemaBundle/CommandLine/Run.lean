import SchemaBundle.CommandLine.Failure
import SchemaBundle.FileTree
import SchemaBundle.Json.Writer
import SchemaBundle.Resolve.Document

/-!
# What a command does

A command first reads and resolves, which changes nothing, and comes to a `Plan`: the warnings to
print, the texts to write, and the failure to end with. There is a plan only for a document that was
resolved. Carrying it out on a tree of files gives the `Outcome` that a user sees.
-/

namespace SchemaBundle.CommandLine

/-- The text of a value in a format. -/
def OutputFormat.text : OutputFormat → Json → String
  | pretty, value => value.pretty
  | compact, value => value.compact

/-- A text to be written. -/
structure Writing where
  /-- The path of a file; without one the text goes to standard output. -/
  destination : Option String
  text : String
  deriving DecidableEq, Repr

/-- What is left to do once a document is resolved. -/
structure Plan where
  /-- The messages of the warnings. -/
  warnings : List String
  /-- In order; one that fails ends the command. -/
  writings : List Writing
  /-- The failure after all that. -/
  failure : Option Failure
  /-- The locations that were asked for. -/
  asked : List Url

namespace ResolveCommand

/-- The options of the pass for an input that lies at a path. -/
def options (command : ResolveCommand) (path : AbsolutePath) : Options :=
  { baseUri := some (command.baseUri.getD (Url.ofFilePath path))
    maxDepth := command.maxDepth
    reuseIdentical := command.reuseIdentical }

/-- Write a value in the format of a command, on lines of its own. -/
def writing (command : ResolveCommand) (destination : Option String) (value : Json) : Writing :=
  ⟨destination, command.format.text value ++ "\n"⟩

/-- What a command does with a resolved document. -/
def planOf (command : ResolveCommand) (resolved : Resolved) : Plan :=
  let warnings := resolved.report.warnings
  { warnings := warnings.map (·.message)
    writings :=
      command.writing command.output resolved.document.toJson ::
        (match command.report with
          | some path => [command.writing (some path) resolved.report.toJson]
          | none => [])
    failure :=
      if command.strict && !warnings.isEmpty then some (.unresolved warnings.length) else none
    asked := resolved.cache.asked }

/-- The plan of a command, when files are opened in a certain way. -/
def plan (command : ResolveCommand)
    (openFile : Bytes → Except FileError (AbsolutePath × Bytes))
    (words : ReaderWords := .unknown) : Except Failure Plan :=
  match openFile command.input.toUTF8.toList with
  | .error cause => .error (.unreadableInput command.input cause)
  | .ok (path, bytes) =>
    match Document.ofBytes bytes with
    | .error cause => .error (.malformedInput command.input cause)
    | .ok document =>
      match document.resolve (Fetcher.ofFiles openFile words) (command.options path) with
      | .error cause => .error (.resolution cause)
      | .ok resolved => .ok (command.planOf resolved)

end ResolveCommand

/-! ## Outcomes -/

/-- What a user sees of a command that has ended. The log is left out: it goes to standard error
while the document is resolved, before anything is printed there. -/
structure Outcome where
  /-- What is on standard output. -/
  output : String
  /-- The messages of the warnings that are printed on standard error. -/
  warnings : List String
  /-- The failure that comes after them. -/
  failure : Option Failure
  files : FileTree

namespace Outcome

/-- The exit code. -/
def code (outcome : Outcome) : Nat :=
  outcome.failure.elim 0 Failure.code

/-- What is printed on standard error, after the log: the warnings, and then the failure. -/
def errors (outcome : Outcome) : String :=
  lines (outcome.warnings.map ("Warning: " ++ ·) ++ outcome.failure.toList.map Failure.text)

end Outcome

/-- Write texts one after the other until one cannot be written: what is on standard output, the
files, and the failure. -/
def writeAll : List Writing → String → FileTree → String × FileTree × Option Failure
  | [], output, files => (output, files, none)
  | ⟨none, text⟩ :: rest, output, files => writeAll rest (output ++ text) files
  | ⟨some path, text⟩ :: rest, output, files =>
    match files.create path.toUTF8.toList text.toUTF8.toList with
    | .ok files => writeAll rest output files
    | .error cause => (output, files, some (.outputNotCreated path cause))

/-- Carry a plan out. -/
def Plan.carryOut (plan : Plan) (files : FileTree) : Outcome :=
  let (output, files, failure) := writeAll plan.writings "" files
  ⟨output, plan.warnings, failure.orElse fun _ => plan.failure, files⟩

/-- Run the resolve command on a tree of files. -/
def ResolveCommand.run (command : ResolveCommand) (files : FileTree)
    (words : ReaderWords := .unknown) : Outcome :=
  match command.plan files.openFile words with
  | .error failure => ⟨"", [], some failure, files⟩
  | .ok plan => plan.carryOut files

/-- What is printed, or how the program fails, when the arguments give no command. -/
def Interruption.answer : Interruption → String × Option Failure
  | misuse => ("", some .misuse)
  | help topic => (topic.text, none)
  | version => (versionText, none)

/-- Run the program on a tree of files. -/
def run (args : List String) (files : FileTree) (words : ReaderWords := .unknown) : Outcome :=
  match readCommand args with
  | .ok command => command.run files words
  | .error interruption => ⟨interruption.answer.1, [], interruption.answer.2, files⟩

end SchemaBundle.CommandLine
