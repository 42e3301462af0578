import SchemaBundle.Error
import SchemaBundle.Json.Value

/-!
# Warnings

A reference that is left as it is, or a subtree that is not looked into, is reported as a warning
and never ends a pass. A warning names the reference as written, says what kind of trouble it is,
and has a message for people.
-/

namespace SchemaBundle

/-- The kinds of warnings. -/
inductive WarningKind
  /-- The reference cannot be split into location and fragment. -/
  | malformedReference
  /-- The document cannot be fetched. -/
  | fetchFailed (location : String)
  /-- The text at the location is no document. -/
  | parseFailed (location : String)
  /-- The document has nothing at the fragment. -/
  | fragmentNotFound (location fragment : String)
  /-- A local reference names a definition that the registry does not have. -/
  | danglingReference (name : String)
  /-- A subtree lies deeper than the limit. -/
  | depthExceeded (maxDepth : Nat)
  /-- A merged fragment keeps a reference under a key that is not interpreted. -/
  | unmodeledReference (location : String)
  deriving DecidableEq, Repr

/-- A warning. -/
structure Warning where
  /-- The reference as written, or the location of a subtree that is too deep. -/
  reference : String
  kind : WarningKind
  message : String
  deriving DecidableEq, Repr

namespace WarningKind

/-- The word for a kind. -/
def name : WarningKind → String
  | malformedReference => "malformed_reference"
  | fetchFailed _ => "fetch_failed"
  | parseFailed _ => "parse_failed"
  | fragmentNotFound _ _ => "fragment_not_found"
  | danglingReference _ => "dangling_reference"
  | depthExceeded _ => "depth_exceeded"
  | unmodeledReference _ => "unmodeled_reference"

/-- What a kind has besides its word. -/
def fields : WarningKind → Members
  | malformedReference => []
  | fetchFailed location => [("location", .str location)]
  | parseFailed location => [("location", .str location)]
  | fragmentNotFound location fragment =>
    [("location", .str location), ("fragment", .str fragment)]
  | danglingReference name => [("name", .str name)]
  | depthExceeded maxDepth => [("max_depth", .int maxDepth)]
  | unmodeledReference location => [("location", .str location)]

/-- A kind as a value. -/
def toJson (kind : WarningKind) : Json :=
  .obj (("type", .str kind.name) :: kind.fields)

/-- The kind of a reference that failed. -/
def ofError : ResolveError → WarningKind
  | .malformedReference _ _ => malformedReference
  | .invalidBaseUri _ _ => malformedReference
  | .fetch location _ => fetchFailed location
  | .parse location _ => parseFailed location
  | .fragmentNotFound location fragment => fragmentNotFound location fragment

end WarningKind

namespace Warning

/-- A reference that could not be resolved. -/
def unresolved (reference : String) (error : ResolveError) : Warning :=
  ⟨reference, .ofError error, error.message⟩

/-- A local reference to a definition that is not there. -/
def dangling (reference name : String) : Warning :=
  ⟨reference, .danglingReference name,
    "No definition named \x60" ++ name ++ "\x60 for " ++ reference⟩

/-- A reference that a merged fragment keeps. -/
def unmodeled (reference location : String) : Warning :=
  ⟨reference, .unmodeledReference location,
    "Reference " ++ reference ++ " merged from " ++ location
      ++ " sits under a keyword that is not resolved"⟩

/-- A subtree of the document at a location that is too deep. -/
def tooDeep (location : String) (maxDepth : Nat) : Warning :=
  ⟨location, .depthExceeded maxDepth,
    "Schema nesting in " ++ location ++ " exceeds max depth "
      ++ String.ofList (Nat.toDigits 10 maxDepth)⟩

/-- A warning as a value. -/
def toJson (warning : Warning) : Json :=
  .obj [("reference", .str warning.reference), ("kind", warning.kind.toJson),
    ("message", .str warning.message)]

end Warning

end SchemaBundle
