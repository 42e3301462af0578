import SchemaBundle.Error
import SchemaBundle.Json.Value
import SchemaBundle.Url.Parse

/-!
# Options of a resolution pass

Options are written as an object with three keys in a fixed order. They are read from an object,
where missing keys take their defaults and unknown ones are ignored, or from a list of the values in
that order.
-/

namespace SchemaBundle

/-- Options of a resolution pass. -/
structure Options where
  /-- The location of the root document. -/
  baseUri : Option String
  /-- The greatest depth at which a schema is looked into. -/
  maxDepth : Nat
  /-- Whether a definition that is already there serves for an identical fragment. -/
  reuseIdentical : Bool
  deriving DecidableEq, Repr

namespace Options

/-- The options of a pass that says nothing about them. -/
def default : Options :=
  ⟨none, 64, true⟩

instance : Inhabited Options := ⟨default⟩

/-- The location assumed for a document that comes from nowhere in particular. -/
def defaultBaseUri : String := "file:///swagger.yaml"

/-- The location of the root document, without fragment. -/
def rootUrl (options : Options) : Except ResolveError Url :=
  let text := options.baseUri.getD defaultBaseUri
  match Url.parse text with
  | .ok url => .ok url.withoutFragment
  | .error e => .error (.invalidBaseUri text (.notAUrl e))

/-- Options as a value. -/
def toJson (options : Options) : Json :=
  .obj [
    ("base-uri", match options.baseUri with
      | some uri => .str uri
      | none => .null),
    ("max-depth", .int options.maxDepth),
    ("reuse-identical", .bool options.reuseIdentical)]

/-- Read the base, which may be null. -/
def readBaseUri : Option Json → Option (Option String)
  | none => some default.baseUri
  | some .null => some none
  | some (.str uri) => some (some uri)
  | some _ => none

/-- A count: a whole number that is not negative. -/
def readCount : Json → Option Nat
  | .int (.ofNat n) => some n
  | _ => none

/-- Read the depth limit. -/
def readMaxDepth : Option Json → Option Nat
  | none => some default.maxDepth
  | some value => readCount value

/-- Read whether to reuse definitions. -/
def readReuse : Option Json → Option Bool
  | none => some default.reuseIdentical
  | some (.bool b) => some b
  | some _ => none

/-- Read options from the values of their keys. -/
def ofValues? (base depth reuse : Option Json) : Option Options :=
  match readBaseUri base, readMaxDepth depth, readReuse reuse with
  | some baseUri, some maxDepth, some reuseIdentical =>
    some { baseUri, maxDepth, reuseIdentical }
  | _, _, _ => none

/-- Read options from an object, or from a list of at most three values. -/
def ofJson? : Json → Option Options
  | .obj members =>
    ofValues? (Entries.find? "base-uri" members) (Entries.find? "max-depth" members)
      (Entries.find? "reuse-identical" members)
  | .arr items =>
    if items.length ≤ 3 then ofValues? items[0]? items[1]? items[2]? else none
  | _ => none

end Options

end SchemaBundle
