import SchemaBundle.Schema.Node

/-!
# References that are kept as they are

Keys that the model does not interpret may hold references too. `Node.verbatimRefs` lists them, in
the order in which a reader of the schema meets them, with one exception: a map of fields on an
array definition is passed over. `Node.isSelfContained` asks whether a schema holds any reference at
all.
-/

namespace SchemaBundle

namespace Json

mutual

/-- The texts under `$ref` anywhere in a value, outer ones first. -/
def refs : Json → List String
  | .obj members =>
    (match Entries.find? "$ref" members with
      | some (.str text) => [text]
      | _ => []) ++ refsInMembers members
  | .arr items => refsInItems items
  | _ => []

/-- The same in every item. -/
def refsInItems : List Json → List String
  | [] => []
  | value :: rest => refs value ++ refsInItems rest

/-- The same in every member. -/
def refsInMembers : List (String × Json) → List String
  | [] => []
  | (_, value) :: rest => refs value ++ refsInMembers rest

end

mutual

/-- Whether a key `$ref` occurs anywhere in a value. -/
def hasRefKey : Json → Bool
  | .obj members => Entries.contains "$ref" members || hasRefKeyInMembers members
  | .arr items => hasRefKeyInItems items
  | _ => false

/-- The same in some item. -/
def hasRefKeyInItems : List Json → Bool
  | [] => false
  | value :: rest => hasRefKey value || hasRefKeyInItems rest

/-- The same in some member. -/
def hasRefKeyInMembers : List (String × Json) → Bool
  | [] => false
  | (_, value) :: rest => hasRefKey value || hasRefKeyInMembers rest

end

end Json

/-- Whether a schema holds no reference, neither an interpreted nor a verbatim one. -/
def Node.isSelfContained (node : Node) : Bool :=
  !node.toJson.hasRefKey

/-- The references in the extra members of interfaces. -/
def RefNode.verbatimRefsOfList : List RefNode → List String
  | [] => []
  | node :: rest => Json.refsInMembers node.extra ++ verbatimRefsOfList rest

mutual

/-- The references of a definition that are never replaced. -/
def Node.verbatimRefs : Node → List String
  | .ref node => Json.refsInMembers node.extra
  | .array items extra =>
    Json.refsInMembers (extra.filter fun member => member.1 ≠ "properties")
      ++ Field.verbatimRefsOfOption items
  | .composed parent child interfaces inline extra =>
    Json.refsInMembers extra ++ Node.verbatimRefsOfOption parent ++ Node.verbatimRefsOfOption child
      ++ RefNode.verbatimRefsOfList interfaces ++ Node.verbatimRefsOfList inline
  | .object properties additional oneOf anyOf negated extra =>
    Json.refsInMembers extra ++ Field.verbatimRefsOfNamed properties
      ++ Field.verbatimRefsOfOptionList oneOf ++ Field.verbatimRefsOfOptionList anyOf
      ++ Field.verbatimRefsOfOption additional ++ Field.verbatimRefsOfOption negated
  | .plain value => value.refs

/-- Those of a node that may be missing. -/
def Node.verbatimRefsOfOption : Option Node → List String
  | none => []
  | some node => Node.verbatimRefs node

/-- Those of nodes one after the other. -/
def Node.verbatimRefsOfList : List Node → List String
  | [] => []
  | node :: rest => Node.verbatimRefs node ++ Node.verbatimRefsOfList rest

/-- The references of a field that are never replaced. -/
def Field.verbatimRefs : Field → List String
  | .ref node => Json.refsInMembers node.extra
  | .array items extra => Json.refsInMembers extra ++ Field.verbatimRefsOfOption items
  | .map additional extra => Json.refsInMembers extra ++ Field.verbatimRefs additional
  | .schema node => Node.verbatimRefs node
  | .primitive extra => Json.refsInMembers extra
  | .plain value => value.refs

/-- Those of a field that may be missing. -/
def Field.verbatimRefsOfOption : Option Field → List String
  | none => []
  | some field => Field.verbatimRefs field

/-- Those of fields one after the other. -/
def Field.verbatimRefsOfList : List Field → List String
  | [] => []
  | field :: rest => Field.verbatimRefs field ++ Field.verbatimRefsOfList rest

/-- Those of a list of fields that may be missing. -/
def Field.verbatimRefsOfOptionList : Option (List Field) → List String
  | none => []
  | some fields => Field.verbatimRefsOfList fields

/-- Those of named fields one after the other. -/
def Field.verbatimRefsOfEntries : List (String × Field) → List String
  | [] => []
  | (_, field) :: rest => Field.verbatimRefs field ++ Field.verbatimRefsOfEntries rest

/-- Those of a map of fields that may be missing. -/
def Field.verbatimRefsOfNamed : Option (List (String × Field)) → List String
  | none => []
  | some fields => Field.verbatimRefsOfEntries fields

end

end SchemaBundle
