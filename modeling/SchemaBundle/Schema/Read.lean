import SchemaBundle.Schema.Node

/-!
# Reading schemas

Reading never fails: a value that is no object becomes a plain one, and keys of an unexpected shape
stay among the extra members. `Parts` holds what the interpreted keys of an object say, each read
once; `Node.ofParts` and `Field.ofParts` decide which of them make the schema. The two classify
alike except that a dictionary and a scalar are kinds of field only.
-/

namespace SchemaBundle

/-- What the interpreted keys of an object hold, as far as they have the shape expected of them. -/
structure Parts where
  reference : Option String
  allOf : Option (List Node)
  items : Option Field
  properties : Option (List (String × Field))
  additional : Option Field
  oneOf : Option (List Field)
  anyOf : Option (List Field)
  negated : Option Field

namespace Parts

/-- No interpreted key. -/
def none : Parts :=
  ⟨.none, .none, .none, .none, .none, .none, .none, .none⟩

end Parts

/-- Whether an object is an array schema: by its type, or because it says what its items are. -/
def isArraySchema (members : Members) : Bool :=
  (match Entries.find? "type" members with
    | some (.str s) => s == "array"
    | _ => false) || Entries.contains "items" members

/-- The members without a key that was taken. -/
def dropTaken {α : Type} (key : String) (taken : Option α) (members : Members) : Members :=
  match taken with
  | some _ => Entries.erase key members
  | none => members

/-- The members of a composition: the first is the parent, the last of the others the child, and
those between are interfaces if they are references. -/
def Node.ofMembers (members : List Node) (extra : Members) : Node :=
  match members with
  | [] => .composed none none [] [] extra
  | parent :: rest =>
    let middle := rest.dropLast
    .composed (some parent) rest.getLast?
      (middle.filterMap fun
        | .ref node => some node
        | _ => none)
      (middle.filter fun
        | .ref _ => false
        | _ => true)
      extra

/-- Classify an object that is read as a definition. -/
def Node.ofParts (layout : Layout) (members : Members) (parts : Parts) : Node :=
  match parts.reference, parts.allOf with
  | some reference, _ => .ref (RefNode.ofText reference layout (Entries.erase "$ref" members))
  | none, some nodes => Node.ofMembers nodes (Entries.erase "allOf" members)
  | none, none =>
    if isArraySchema members then
      .array parts.items (Entries.erase "items" members)
    else
      .object parts.properties parts.additional parts.oneOf parts.anyOf parts.negated
        (dropTaken "not" parts.negated <| dropTaken "anyOf" parts.anyOf <|
          dropTaken "oneOf" parts.oneOf <| dropTaken "additionalProperties" parts.additional <|
          dropTaken "properties" parts.properties members)

/-- Whether a field is an inline schema rather than an array, a dictionary or a scalar. -/
def Parts.isInlineSchema (parts : Parts) : Bool :=
  parts.allOf.isSome || parts.oneOf.isSome || parts.anyOf.isSome || parts.properties.isSome
    || parts.negated.isSome

/-- Classify an object that is read as a field. -/
def Field.ofParts (layout : Layout) (members : Members) (parts : Parts) : Field :=
  match parts.reference with
  | some reference => .ref (RefNode.ofText reference layout (Entries.erase "$ref" members))
  | none =>
    if parts.isInlineSchema then
      .schema (Node.ofParts layout members parts)
    else if isArraySchema members then
      .array parts.items (Entries.erase "items" members)
    else
      match parts.additional with
      | some additional => .map additional (Entries.erase "additionalProperties" members)
      | none => .primitive members

mutual

/-- Read a value as a definition. -/
def Node.ofJson (layout : Layout) : Json → Node
  | .obj members => Node.ofParts layout members (Parts.ofMembers layout members)
  | value => .plain value

/-- Read values as definitions. -/
def Node.listOfJson (layout : Layout) : List Json → List Node
  | [] => []
  | value :: rest => Node.ofJson layout value :: Node.listOfJson layout rest

/-- Read a value as a field. -/
def Field.ofJson (layout : Layout) : Json → Field
  | .obj members => Field.ofParts layout members (Parts.ofMembers layout members)
  | value => .plain value

/-- Read values as fields. -/
def Field.listOfJson (layout : Layout) : List Json → List Field
  | [] => []
  | value :: rest => Field.ofJson layout value :: Field.listOfJson layout rest

/-- Read named values as fields. -/
def Field.entriesOfJson (layout : Layout) : List (String × Json) → List (String × Field)
  | [] => []
  | (name, value) :: rest => (name, Field.ofJson layout value) :: Field.entriesOfJson layout rest

/-- Read the interpreted keys among members. -/
def Parts.ofMembers (layout : Layout) : List (String × Json) → Parts
  | [] => Parts.none
  | (key, value) :: rest => Parts.withMember layout key (Parts.ofMembers layout rest) value

/-- Read one member before the others. -/
def Parts.withMember (layout : Layout) (key : String) (parts : Parts) : Json → Parts
  | .str text =>
    if key = "$ref" then { parts with reference := some text }
    else if key = "items" then { parts with items := some (.plain (.str text)) }
    else parts
  | .arr values =>
    if key = "allOf" then { parts with allOf := some (Node.listOfJson layout values) }
    else if key = "oneOf" then { parts with oneOf := some (Field.listOfJson layout values) }
    else if key = "anyOf" then { parts with anyOf := some (Field.listOfJson layout values) }
    else if key = "items" then { parts with items := some (.plain (.arr values)) }
    else parts
  | .obj members =>
    if key = "items" then
      { parts with items := some (Field.ofParts layout members (Parts.ofMembers layout members)) }
    else if key = "properties" then
      { parts with properties := some (Field.entriesOfJson layout members) }
    else if key = "additionalProperties" then
      { parts with
        additional := some (Field.ofParts layout members (Parts.ofMembers layout members)) }
    else if key = "not" then
      { parts with negated := some (Field.ofParts layout members (Parts.ofMembers layout members)) }
    else parts
  | value => if key = "items" then { parts with items := some (.plain value) } else parts

end

end SchemaBundle
