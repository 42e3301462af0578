import SchemaBundle.CommandLine.Help
import SchemaBundle.Error

/-!
# How a command fails

A failure is told in a headline and, where another part has failed, the cause in that part's words.
Arguments that make no command are a failure with a code of their own.
-/

namespace SchemaBundle.CommandLine

/-- Why a command failed. -/
inductive Failure
  | misuse
  | unreadableInput (path : String) (cause : FileError)
  | malformedInput (path : String) (cause : DocumentError)
  | resolution (cause : ResolveError)
  | outputNotCreated (path : String) (cause : FileError)
  /-- References are left unresolved and that was not to be. -/
  | unresolved (count : Nat)
  deriving DecidableEq, Repr

namespace Failure

/-- The exit code. -/
def code : Failure → Nat
  | misuse => 2
  | _ => 1

/-- What failed. -/
def headline : Failure → String
  | misuse => "Invalid arguments"
  | unreadableInput path _ => "Failed to read input file: " ++ path
  | malformedInput path _ => "Failed to parse document from: " ++ path
  | resolution _ => "Resolution failed"
  | outputNotCreated path _ => "Failed to create output file: " ++ path
  | unresolved count =>
    String.ofList (Nat.toDigits 10 count) ++ " reference(s) left unresolved"

/-- Why it failed, if there is more to say. -/
def cause? : Failure → Option String
  | misuse => none
  | unreadableInput _ cause => some cause.message
  | malformedInput _ cause => some cause.message
  | resolution cause => some cause.message
  | outputNotCreated _ cause => some cause.message
  | unresolved _ => none

/-- A text with four spaces at the start of each line. -/
def indented (text : String) : String :=
  "    " ++ String.ofList (text.toList.flatMap fun c =>
    if c = '\n' then '\n' :: List.replicate 4 ' ' else [c])

/-- What is said after the headline. -/
def explanation (failure : Failure) : String :=
  match failure, failure.cause? with
  | misuse, _ => "\n\n" ++ misuseHint
  | _, some cause => "\n\nCaused by:\n" ++ indented cause
  | _, none => ""

/-- A failure as it is printed, without the end of its last line. -/
def text (failure : Failure) : String :=
  "Error: " ++ failure.headline ++ failure.explanation

end Failure

end SchemaBundle.CommandLine
