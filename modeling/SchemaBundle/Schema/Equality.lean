import SchemaBundle.Schema.Node

/-!
# When two schemas are the same

Schemas are compared as data: the same shapes with the same parts, where the order of named fields
and of extra members does not count, and references are equal when their texts and kinds are.
-/

namespace SchemaBundle

/-- References with equal text, kind and extra members. -/
def RefNode.eqv (a b : RefNode) : Bool :=
  a.reference == b.reference && decide (a.format = b.format) && Json.eqvObject a.extra b.extra

/-- References that are equal one by one. -/
def RefNode.eqvList : List RefNode → List RefNode → Bool
  | [], [] => true
  | a :: as, b :: bs => a.eqv b && eqvList as bs
  | _, _ => false

mutual

/-- Whether two definitions are the same as data. -/
def Node.eqv : Node → Node → Bool
  | .ref a, .ref b => a.eqv b
  | .array items extra, .array items' extra' =>
    Field.eqvOption items items' && Json.eqvObject extra extra'
  | .composed parent child interfaces inline extra,
    .composed parent' child' interfaces' inline' extra' =>
    Node.eqvOption parent parent' && Node.eqvOption child child'
      && RefNode.eqvList interfaces interfaces' && Node.eqvList inline inline'
      && Json.eqvObject extra extra'
  | .object properties additional oneOf anyOf negated extra,
    .object properties' additional' oneOf' anyOf' negated' extra' =>
    Field.eqvNamed properties properties' && Field.eqvOption additional additional'
      && Field.eqvOptionList oneOf oneOf' && Field.eqvOptionList anyOf anyOf'
      && Field.eqvOption negated negated' && Json.eqvObject extra extra'
  | .plain a, .plain b => a.eqv b
  | _, _ => false

/-- Both missing, or both there and the same. -/
def Node.eqvOption : Option Node → Option Node → Bool
  | none, none => true
  | some a, some b => Node.eqv a b
  | _, _ => false

/-- The same one by one. -/
def Node.eqvList : List Node → List Node → Bool
  | [], [] => true
  | a :: as, b :: bs => Node.eqv a b && Node.eqvList as bs
  | _, _ => false

/-- Whether two fields are the same as data. -/
def Field.eqv : Field → Field → Bool
  | .ref a, .ref b => a.eqv b
  | .array items extra, .array items' extra' =>
    Field.eqvOption items items' && Json.eqvObject extra extra'
  | .map additional extra, .map additional' extra' =>
    Field.eqv additional additional' && Json.eqvObject extra extra'
  | .schema a, .schema b => Node.eqv a b
  | .primitive extra, .primitive extra' => Json.eqvObject extra extra'
  | .plain a, .plain b => a.eqv b
  | _, _ => false

/-- Both missing, or both there and the same. -/
def Field.eqvOption : Option Field → Option Field → Bool
  | none, none => true
  | some a, some b => Field.eqv a b
  | _, _ => false

/-- The same one by one. -/
def Field.eqvList : List Field → List Field → Bool
  | [], [] => true
  | a :: as, b :: bs => Field.eqv a b && Field.eqvList as bs
  | _, _ => false

/-- Both missing, or both there and the same one by one. -/
def Field.eqvOptionList : Option (List Field) → Option (List Field) → Bool
  | none, none => true
  | some as, some bs => Field.eqvList as bs
  | _, _ => false

/-- Every field on the left has the same one under its name on the right. -/
def Field.eqvEntries : List (String × Field) → List (String × Field) → Bool
  | [], _ => true
  | (name, a) :: as, bs =>
    (match Entries.find? name bs with
      | some b => Field.eqv a b
      | none => false) && Field.eqvEntries as bs

/-- Both missing, or both there with the same fields in any order. -/
def Field.eqvNamed : Option (List (String × Field)) → Option (List (String × Field)) → Bool
  | none, none => true
  | some as, some bs => as.length == bs.length && Field.eqvEntries as bs
  | _, _ => false

end

end SchemaBundle
