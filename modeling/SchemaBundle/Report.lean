import SchemaBundle.Options
import SchemaBundle.Warning

/-!
# Reports

What a pass did: its warnings, the fragments it merged and the number of documents it asked for.
Reports are written with their keys in this order, and read back from objects with all keys or from
lists of the values in order.
-/

namespace SchemaBundle

/-- A fragment that was copied into the registry. -/
structure Merged where
  /-- The location and the pointer of the fragment. -/
  source : String
  /-- The name it received. -/
  localName : String
  deriving DecidableEq, Repr

/-- What a pass did. -/
structure Report where
  /-- In the order of their discovery. -/
  warnings : List Warning
  /-- In the order of insertion. -/
  merged : List Merged
  /-- The number of documents asked for, failures included. -/
  fetches : Nat
  deriving DecidableEq, Repr

/-! ## Writing -/

/-- A merged fragment as a value. -/
def Merged.toJson (merged : Merged) : Json :=
  .obj [("source", .str merged.source), ("local_name", .str merged.localName)]

/-- A report as a value. -/
def Report.toJson (report : Report) : Json :=
  .obj [("warnings", .arr (report.warnings.map Warning.toJson)),
    ("merged", .arr (report.merged.map Merged.toJson)), ("fetches", .int report.fetches)]

/-! ## Reading -/

/-- The values of some keys, in order: from an object that has them all, or from a list of just as
many values. -/
def fieldValues? (keys : List String) : Json → Option (List Json)
  | .obj members => keys.mapM fun key => Entries.find? key members
  | .arr items => if items.length = keys.length then some items else none
  | _ => none

/-- Read a string. -/
def readString : Json → Option String
  | .str s => some s
  | _ => none

/-- Read every item of a list. -/
def readList {α : Type} (read : Json → Option α) : Json → Option (List α)
  | .arr items => items.mapM read
  | _ => none

namespace WarningKind

/-- The keys that a kind has besides its word. -/
def keysOf : String → List String
  | "fetch_failed" => ["location"]
  | "parse_failed" => ["location"]
  | "fragment_not_found" => ["location", "fragment"]
  | "dangling_reference" => ["name"]
  | "depth_exceeded" => ["max_depth"]
  | "unmodeled_reference" => ["location"]
  | _ => []

/-- The kind of a word with the values of its keys. -/
def ofFields? : String → List Json → Option WarningKind
  | "malformed_reference", [] => some malformedReference
  | "fetch_failed", [location] => (readString location).map fetchFailed
  | "parse_failed", [location] => (readString location).map parseFailed
  | "fragment_not_found", [location, fragment] =>
    (readString location).bind fun l => (readString fragment).map (fragmentNotFound l)
  | "dangling_reference", [name] => (readString name).map danglingReference
  | "depth_exceeded", [depth] => (Options.readCount depth).map depthExceeded
  | "unmodeled_reference", [location] => (readString location).map unmodeledReference
  | _, _ => none

/-- Read a kind: an object with its word under `type`, or a list that starts with the word. -/
def ofJson? : Json → Option WarningKind
  | .obj members =>
    match Entries.find? "type" members with
    | some (.str name) => (fieldValues? (keysOf name) (.obj members)).bind (ofFields? name)
    | _ => none
  | .arr (.str name :: values) => ofFields? name values
  | _ => none

end WarningKind

/-- Read a warning. -/
def Warning.ofJson? (value : Json) : Option Warning :=
  match fieldValues? ["reference", "kind", "message"] value with
  | some [reference, kind, message] =>
    match readString reference, WarningKind.ofJson? kind, readString message with
    | some reference, some kind, some message => some { reference, kind, message }
    | _, _, _ => none
  | _ => none

/-- Read a merged fragment. -/
def Merged.ofJson? (value : Json) : Option Merged :=
  match fieldValues? ["source", "local_name"] value with
  | some [source, localName] =>
    match readString source, readString localName with
    | some source, some localName => some { source, localName }
    | _, _ => none
  | _ => none

/-- Read a report. -/
def Report.ofJson? (value : Json) : Option Report :=
  match fieldValues? ["warnings", "merged", "fetches"] value with
  | some [warnings, merged, fetches] =>
    match readList Warning.ofJson? warnings, readList Merged.ofJson? merged,
      Options.readCount fetches with
    | some warnings, some merged, some fetches => some { warnings, merged, fetches }
    | _, _, _ => none
  | _ => none

end SchemaBundle
