import SchemaBundle.Reference.Format

/-!
# Schemas

A definition is a `Node`: a reference, an array, a composition, an object, or a value that is no
schema at all. The fields of an object are of type `Field`, and an inline schema among them is a
node again. Keys that the model does not interpret stay in the `extra` members of their node, so
that a schema can be written out with everything it came with.
-/

namespace SchemaBundle

/-- A reference with the other keys that stand beside it. -/
structure RefNode where
  reference : String
  format : RefFormat
  extra : List (String × Json)

mutual

/-- A schema that is read as a definition. -/
inductive Node
  | ref (node : RefNode)
  /-- A list of items. A map of fields on it stays among the extra members. -/
  | array (items : Option Field) (extra : List (String × Json))
  /-- A composition: the first member, the last one, and between them the members that are
  references and those that are not. -/
  | composed (parent child : Option Node) (interfaces : List RefNode) (inline : List Node)
      (extra : List (String × Json))
  | object (properties : Option (List (String × Field))) (additional : Option Field)
      (oneOf anyOf : Option (List Field)) (negated : Option Field) (extra : List (String × Json))
  /-- A value that is no schema. -/
  | plain (value : Json)

/-- A schema that is read as the field of an object. -/
inductive Field
  | ref (node : RefNode)
  | array (items : Option Field) (extra : List (String × Json))
  /-- A dictionary whose values all have one schema. -/
  | map (additional : Field) (extra : List (String × Json))
  /-- An inline object or composition. -/
  | schema (node : Node)
  /-- A scalar. -/
  | primitive (extra : List (String × Json))
  /-- A value that is no schema. -/
  | plain (value : Json)

end

instance : Inhabited Node := ⟨.plain .null⟩
instance : Inhabited Field := ⟨.plain .null⟩

/-- Named definitions of a document, in order. -/
abbrev Definitions := Entries Node

/-- A reference, classified, with a bare name expanded. -/
def RefNode.ofText (reference : String) (layout : Layout) (extra : Members) : RefNode :=
  let (text, format) := Reference.normalize reference layout
  ⟨text, format, extra⟩

/-! ## Writing schemas -/

/-- A reference as a value. -/
def RefNode.toJson (node : RefNode) : Json :=
  .obj (("$ref", .str node.reference) :: node.extra)

/-- A member that is there or not. -/
def optionalMember (key : String) : Option Json → Members
  | some value => [(key, value)]
  | none => []

mutual

/-- A schema as a value: the keys that were not interpreted, then the others in a fixed order. -/
def Node.toJson : Node → Json
  | .ref node => node.toJson
  | .array items extra => .obj (extra ++ optionalMember "items" (Field.optionToJson items))
  | .composed parent child interfaces inline extra =>
    .obj (extra ++ [("allOf", .arr ((Node.optionToJson parent).toList
      ++ interfaces.map RefNode.toJson ++ Node.listToJson inline
      ++ (Node.optionToJson child).toList))])
  | .object properties additional oneOf anyOf negated extra =>
    .obj (extra ++ optionalMember "properties" (Field.namedToJson properties)
      ++ optionalMember "additionalProperties" (Field.optionToJson additional)
      ++ optionalMember "oneOf" (Field.optionListToJson oneOf)
      ++ optionalMember "anyOf" (Field.optionListToJson anyOf)
      ++ optionalMember "not" (Field.optionToJson negated))
  | .plain value => value

/-- A node that may be missing. -/
def Node.optionToJson : Option Node → Option Json
  | none => none
  | some node => some node.toJson

/-- Nodes one after the other. -/
def Node.listToJson : List Node → List Json
  | [] => []
  | node :: rest => node.toJson :: Node.listToJson rest

/-- A field as a value. -/
def Field.toJson : Field → Json
  | .ref node => node.toJson
  | .array items extra => .obj (extra ++ optionalMember "items" (Field.optionToJson items))
  | .map additional extra => .obj (extra ++ [("additionalProperties", additional.toJson)])
  | .schema node => node.toJson
  | .primitive extra => .obj extra
  | .plain value => value

/-- A field that may be missing. -/
def Field.optionToJson : Option Field → Option Json
  | none => none
  | some field => some field.toJson

/-- Fields one after the other. -/
def Field.listToJson : List Field → List Json
  | [] => []
  | field :: rest => field.toJson :: Field.listToJson rest

/-- A list of fields that may be missing. -/
def Field.optionListToJson : Option (List Field) → Option Json
  | none => none
  | some fields => some (.arr (Field.listToJson fields))

/-- Named fields one after the other. -/
def Field.entriesToJson : List (String × Field) → List (String × Json)
  | [] => []
  | (name, field) :: rest => (name, field.toJson) :: Field.entriesToJson rest

/-- A map of fields that may be missing. -/
def Field.namedToJson : Option (List (String × Field)) → Option Json
  | none => none
  | some fields => some (.obj (Field.entriesToJson fields))

end

end SchemaBundle
