import SchemaBundle.CommandLine.Run

/-!
# The program

Reads and writes the files of the machine. A plan is made from the files opened so far; if it asked
for others, they are opened and it is made again, until it has seen every file that it asks for.
-/

namespace SchemaBundle.CommandLine

/-- The files opened so far, by their paths. -/
abbrev Opened := List (Bytes × Except FileError (AbsolutePath × Bytes))

/-- Look a file up among those opened. -/
def Opened.openFile (opened : Opened) (path : Bytes) : Except FileError (AbsolutePath × Bytes) :=
  match opened.find? fun entry => entry.1 = path with
  | some (_, outcome) => outcome
  | none => .error (.other "not opened yet")

/-- An error code of the system, which comes with either sign. -/
def systemCode (code : UInt32) : Nat :=
  min code.toNat (-code).toNat

/-- What the system says, as a file error. -/
def fileErrorOf (error : IO.Error) : FileError :=
  match error with
  | .noFileOrDirectory _ _ _ => .notFound
  | .inappropriateType _ code _ =>
    if systemCode code = 21 then .isDirectory
    else if systemCode code = 20 then .notDirectory
    else .other error.toString
  | .invalidArgument _ code _ =>
    if systemCode code = 36 then .nameTooLong else .other error.toString
  | _ => .other error.toString

/-- The text of a path; the machine's paths are texts here. -/
def pathText? (path : Bytes) : Option String :=
  if path.contains 0 then none else String.fromUTF8? ⟨path.toArray⟩

/-- Open a file of the machine. -/
def openOnMachine (path : Bytes) : IO (Except FileError (AbsolutePath × Bytes)) := do
  match pathText? path with
  | none => return .error .invalidName
  | some text =>
    try
      let bytes ← IO.FS.readBinFile text
      let place ← IO.FS.realPath text
      let names := FileTree.names place.toString.toUTF8.toList
      return .ok (names.drop 1, bytes.toList)
    catch error => return .error (fileErrorOf error)

/-- Make the plan of a command from the files of the machine. -/
partial def planOnMachine (command : ResolveCommand) (opened : Opened) :
    IO (Except Failure Plan) := do
  match command.plan opened.openFile with
  | .error failure => return .error failure
  | .ok plan =>
    let paths := plan.asked.filterMap Url.filePath?
    match paths.find? fun path => !(opened.map (·.1)).contains path with
    | none => return .ok plan
    | some path => planOnMachine command ((path, ← openOnMachine path) :: opened)

/-- Write texts until one cannot be written. -/
def writeOnMachine : List Writing → IO (Option Failure)
  | [] => return none
  | ⟨none, text⟩ :: rest => do
    IO.print text
    writeOnMachine rest
  | ⟨some path, text⟩ :: rest => do
    let failure ←
      try
        IO.FS.writeFile path text
        pure none
      catch error => pure (some (Failure.outputNotCreated path (fileErrorOf error)))
    match failure with
    | some failure => return some failure
    | none => writeOnMachine rest

/-- Print a failure, if there is one, and give its code. -/
def finish (failure : Option Failure) : IO UInt32 := do
  match failure with
  | none => return 0
  | some failure =>
    IO.eprintln failure.text
    return failure.code.toUInt32

/-- Run a command on the files of the machine. -/
def runOnMachine (command : ResolveCommand) : IO UInt32 := do
  let path := command.input.toUTF8.toList
  match ← planOnMachine command [(path, ← openOnMachine path)] with
  | .error failure => finish (some failure)
  | .ok plan =>
    for warning in plan.warnings do
      IO.eprintln ("Warning: " ++ warning)
    finish ((← writeOnMachine plan.writings).orElse fun _ => plan.failure)

end SchemaBundle.CommandLine

open SchemaBundle.CommandLine in
/-- Run the program. -/
def main (args : List String) : IO UInt32 := do
  match readCommand args with
  | .ok command => runOnMachine command
  | .error interruption =>
    IO.print interruption.answer.1
    finish interruption.answer.2
