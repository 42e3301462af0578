import SchemaBundle.Error
import SchemaBundle.Schema.Read
import SchemaBundle.Yaml.Load

/-!
# Specification documents

Only the registry of definitions is interpreted. Everything else of a document stays as it is in
`rest`, where `null` stands in the place of the registry so that writing puts it back there.
-/

namespace SchemaBundle

/-- Guess the layout of a document from its top-level keys. -/
def Layout.detect (root : Members) : Layout :=
  if Entries.contains "definitions" root then .swagger2
  else if Entries.contains "openapi" root then .openApi3
  else
    match Entries.find? "components" root with
    | some (.obj components) =>
      if Entries.contains "schemas" components then .openApi3 else .swagger2
    | _ => .swagger2

/-- A specification document. -/
structure Document where
  layout : Layout
  definitions : Definitions
  rest : Members

/-- The definitions as members. -/
def Definitions.toMembers (definitions : Definitions) : Members :=
  definitions.map fun (name, node) => (name, node.toJson)

namespace Document

/-- The value in the place of the registry, if the document has the place. -/
def registryValue (layout : Layout) (root : Members) : Option Json :=
  match layout with
  | .swagger2 => Entries.find? "definitions" root
  | .openApi3 => (Entries.find? "components" root).bind (Json.member? "schemas")

/-- The document with another value in the place of the registry. A missing `components` is added
at the end; one that is no object holds no registry. -/
def withRegistry (layout : Layout) (root : Members) (value : Json) : Members :=
  match layout with
  | .swagger2 => Entries.insert "definitions" value root
  | .openApi3 =>
    match Entries.find? "components" root with
    | none => Entries.insert "components" (.obj [("schemas", value)]) root
    | some (.obj components) =>
      Entries.insert "components" (.obj (Entries.insert "schemas" value components)) root
    | some _ => root

/-- The definitions of a registry value. -/
def definitionsOf (layout : Layout) : Option Json → Definitions
  | some (.obj members) => members.map fun (name, schema) => (name, Node.ofJson layout schema)
  | _ => []

/-- Read a value as a document. -/
def ofJson : Json → Except DocumentError Document
  | .obj root =>
    let layout := Layout.detect root
    let registry := registryValue layout root
    .ok {
      layout
      definitions := definitionsOf layout registry
      rest := if registry.isSome then withRegistry layout root .null else root }
  | value => .error (.notAMapping value.kindName)

/-- Read YAML or JSON text as a document. -/
def ofBytes (bytes : List UInt8) : Except DocumentError Document :=
  match loadJson bytes with
  | .ok value => ofJson value
  | .error _ => .error .parse

/-- A document as a value. The place of the registry is added only if there are definitions. -/
def toJson (document : Document) : Json :=
  if (registryValue document.layout document.rest).isSome || !document.definitions.isEmpty then
    .obj (withRegistry document.layout document.rest (.obj document.definitions.toMembers))
  else
    .obj document.rest

end Document

end SchemaBundle
