import Mathlib.Data.List.Basic
import SchemaBundle.Schema.Node

/-!
# The parts of a schema

`Schema.parts` are the parts of a definition or a field, in the order in which a walk visits them. A
reference that a schema is, and an interface of a composition, is a part of its own: it is followed
and not looked into. `Schema.hollow` is what is left of a schema without its parts, so that both
together determine it (`Schema.eq_of_parts`).

`Part.below` are the parts one level below a part. A schema that is a reference has nothing below:
the reference stands on the level of the schema, and is its `Part.reference?`. What holds of a part
whenever it holds of the parts below holds of every part (`Part.induction_below`), so that the
shapes of schemas are of no concern where the parts below a part and its reference are known.
-/

namespace SchemaBundle

/-- What a walk looks into: a definition or a field. -/
inductive Schema
  | node (node : Node)
  | field (field : Field)

/-- What a walk visits: a schema, or a reference that is followed at once. -/
inductive Part
  | schema (schema : Schema)
  | reference (r : RefNode)

/-! ## Parts -/

/-- The part that a definition is. -/
def Node.part (node : Node) : Part :=
  .schema (.node node)

/-- The part that a field is. -/
def Field.part (field : Field) : Part :=
  .schema (.field field)

/-- The parts of a definition, in the order of a walk. -/
def Node.parts : Node → List Part
  | .ref r => [.reference r]
  | .array items _ => items.toList.map Field.part
  | .composed parent child interfaces inline _ =>
    parent.toList.map Node.part ++ (child.toList.map Node.part ++
      (interfaces.map Part.reference ++ inline.map Node.part))
  | .object properties additional oneOf anyOf negated _ =>
    properties.toList.flatMap (List.map fun field => field.2.part) ++
      (additional.toList.map Field.part ++ (oneOf.toList.flatMap (List.map Field.part) ++
        (anyOf.toList.flatMap (List.map Field.part) ++ negated.toList.map Field.part)))
  | .plain _ => []

/-- The parts of a field. -/
def Field.parts : Field → List Part
  | .ref r => [.reference r]
  | .array items _ => items.toList.map Field.part
  | .map additional _ => [additional.part]
  | .schema node => [node.part]
  | .primitive _ => []
  | .plain _ => []

/-- A reference of which nothing is left. -/
def RefNode.blank : RefNode :=
  ⟨"", .internal, []⟩

/-- A definition without its parts. -/
def Node.hollow : Node → Node
  | .ref _ => .ref .blank
  | .array items extra => .array (items.map fun _ => default) extra
  | .composed parent child interfaces inline extra =>
    .composed (parent.map fun _ => default) (child.map fun _ => default)
      (interfaces.map fun _ => .blank) (inline.map fun _ => default) extra
  | .object properties additional oneOf anyOf negated extra =>
    .object (properties.map (List.map fun field => (field.1, default)))
      (additional.map fun _ => default) (oneOf.map (List.map fun _ => default))
      (anyOf.map (List.map fun _ => default)) (negated.map fun _ => default) extra
  | .plain value => .plain value

/-- A field without its parts. -/
def Field.hollow : Field → Field
  | .ref _ => .ref .blank
  | .array items extra => .array (items.map fun _ => default) extra
  | .map _ extra => .map default extra
  | .schema _ => .schema default
  | .primitive extra => .primitive extra
  | .plain value => .plain value

namespace Schema

/-- The parts of a schema, in the order of a walk. -/
def parts : Schema → List Part
  | .node a => a.parts
  | .field a => a.parts

/-- A schema without its parts. -/
def hollow : Schema → Schema
  | .node a => .node a.hollow
  | .field a => .field a.hollow

/-- The levels from a schema to its parts. A reference stands on the level of the schema that it
is. -/
def drop : Schema → Nat
  | .node (.ref _) => 0
  | .field (.ref _) => 0
  | _ => 1

/-- The parts of a schema are a level below it, unless it is a reference. -/
theorem drop_cases (a : Schema) :
    a.drop = 1 ∨ a.drop = 0 ∧ ∃ r, a.parts = [.reference r] := by
  cases a with
  | node a => cases a <;> simp [drop, parts, Node.parts]
  | field a => cases a <;> simp [drop, parts, Field.parts]

end Schema

/-! ### The parts and the hollow -/

section Hollow

variable {α β γ : Type} {wrap : α → β}

theorem eq_of_map_toList (injective : Function.Injective wrap) {x y : Option α}
    (h : x.toList.map wrap = y.toList.map wrap) : x = y := by
  cases x <;> cases y <;> simp_all [injective.eq_iff]

/-- Of a list that may be missing, the items and whether it is there. -/
theorem eq_of_flatMap_toList (injective : Function.Injective wrap) {x y : Option (List α)} {b : γ}
    (same : x.map (List.map fun _ => b) = y.map (List.map fun _ => b))
    (h : x.toList.flatMap (List.map wrap) = y.toList.flatMap (List.map wrap)) : x = y := by
  cases x <;> cases y <;> simp_all [(List.map_injective_iff.2 injective).eq_iff]

/-- Of named fields that may be missing, the fields and the names. -/
theorem eq_of_named {x y : Option (List (String × α))} {b : γ} (injective : Function.Injective wrap)
    (same : x.map (List.map fun field => (field.1, b)) = y.map (List.map fun field => (field.1, b)))
    (h : x.toList.flatMap (List.map fun field => wrap field.2)
      = y.toList.flatMap (List.map fun field => wrap field.2)) : x = y := by
  cases x with
  | none => cases y <;> simp_all
  | some xs =>
    cases y with
    | none => simp at same
    | some ys =>
      simp only [Option.map_some, Option.some.injEq, Option.toList_some,
        List.flatMap_singleton] at same h ⊢
      induction xs generalizing ys with
      | nil => simpa using same
      | cons field rest ih =>
        cases ys with
        | nil => simp at same
        | cons field' rest' =>
          simp only [List.map_cons, List.cons.injEq, Prod.mk.injEq, and_true] at same h
          rw [ih rest' same.2 h.2, Prod.ext same.1 (injective h.1)]

theorem length_map_toList {x y : Option α} {b : γ}
    (same : x.map (fun _ => b) = y.map fun _ => b) :
    (x.toList.map wrap).length = (y.toList.map wrap).length := by
  cases x <;> cases y <;> simp_all

theorem length_flatMap_toList {x y : Option (List α)} {f : α → γ}
    (same : x.map (List.map f) = y.map (List.map f)) :
    (x.toList.flatMap (List.map wrap)).length = (y.toList.flatMap (List.map wrap)).length := by
  have lengths := congrArg (Option.map List.length) same
  simp only [Option.map_map] at lengths
  cases x <;> cases y <;> simp_all [Function.comp_def]

theorem Node.part_injective : Function.Injective Node.part := by
  intro a b h
  simpa [Node.part] using h

theorem Field.part_injective : Function.Injective Field.part := by
  intro a b h
  simpa [Field.part] using h

theorem Part.reference_injective : Function.Injective Part.reference := by
  intro a b h
  simpa using h

theorem Node.eq_of_parts {a b : Node} (hollow : a.hollow = b.hollow) (parts : a.parts = b.parts) :
    a = b := by
  cases a with
  | ref r =>
    cases b <;> simp [Node.hollow] at hollow
    simpa [Node.parts] using parts
  | array items extra =>
    cases b <;> simp only [Node.hollow, Node.array.injEq, reduceCtorEq] at hollow
    rw [eq_of_map_toList Field.part_injective parts, hollow.2]
  | composed parent child interfaces inline extra =>
    cases b <;> simp only [Node.hollow, Node.composed.injEq, reduceCtorEq] at hollow
    obtain ⟨hp, hc, hi, hm, rfl⟩ := hollow
    obtain ⟨isParent, parts⟩ := List.append_inj parts (length_map_toList hp)
    obtain ⟨isChild, parts⟩ := List.append_inj parts (length_map_toList hc)
    obtain ⟨isInterface, isInline⟩ :=
      List.append_inj parts (by simpa using congrArg List.length hi)
    rw [eq_of_map_toList Node.part_injective isParent, eq_of_map_toList Node.part_injective isChild,
      List.map_injective_iff.2 Part.reference_injective isInterface,
      List.map_injective_iff.2 Node.part_injective isInline]
  | object properties additional oneOf anyOf negated extra =>
    cases b <;> simp only [Node.hollow, Node.object.injEq, reduceCtorEq] at hollow
    obtain ⟨hp, ha, ho, hy, hn, rfl⟩ := hollow
    obtain ⟨isProperty, parts⟩ := List.append_inj parts (length_flatMap_toList hp)
    obtain ⟨isAdditional, parts⟩ := List.append_inj parts (length_map_toList ha)
    obtain ⟨isOneOf, parts⟩ := List.append_inj parts (length_flatMap_toList ho)
    obtain ⟨isAnyOf, isNegated⟩ := List.append_inj parts (length_flatMap_toList hy)
    rw [eq_of_named Field.part_injective hp isProperty,
      eq_of_map_toList Field.part_injective isAdditional,
      eq_of_flatMap_toList Field.part_injective ho isOneOf,
      eq_of_flatMap_toList Field.part_injective hy isAnyOf,
      eq_of_map_toList Field.part_injective isNegated]
  | plain value =>
    cases b <;> simp [Node.hollow] at hollow
    rw [hollow]

theorem Field.eq_of_parts {a b : Field} (hollow : a.hollow = b.hollow) (parts : a.parts = b.parts) :
    a = b := by
  cases a with
  | array items extra =>
    cases b <;> simp only [Field.hollow, Field.array.injEq, reduceCtorEq] at hollow
    rw [eq_of_map_toList Field.part_injective parts, hollow.2]
  | _ => cases b <;> simp_all [Field.hollow, Field.parts, Field.part, Node.part]

/-- The hollow and the parts of a schema determine it. -/
theorem Schema.eq_of_parts {a b : Schema} (hollow : a.hollow = b.hollow)
    (parts : a.parts = b.parts) : a = b := by
  cases a <;> cases b <;> simp only [Schema.hollow, Schema.node.injEq, Schema.field.injEq,
    reduceCtorEq] at hollow
  · exact congrArg Schema.node (Node.eq_of_parts hollow parts)
  · exact congrArg Schema.field (Field.eq_of_parts hollow parts)

end Hollow

/-! ## The parts below -/

namespace Part

/-- The parts a level below a part. -/
def below : Part → List Part
  | .schema a => if a.drop = 0 then [] else a.parts
  | .reference _ => []

/-- The reference that a part is. -/
def reference? : Part → Option RefNode
  | .reference r => some r
  | .schema (.node (.ref r)) => some r
  | .schema (.field (.ref r)) => some r
  | _ => none

/-- A part without its reference and the parts below. -/
def hollow : Part → Part
  | .schema a => .schema a.hollow
  | .reference _ => .reference .blank

/-- What is written of a part. -/
def toJson : Part → Json
  | .schema (.node a) => a.toJson
  | .schema (.field a) => a.toJson
  | .reference r => r.toJson

/-- A schema has one part, the reference that it is, or the parts below. -/
theorem parts_eq (a : Schema) :
    a.parts = (schema a).reference?.toList.map reference ++ (schema a).below := by
  cases a with
  | node a => cases a <;> rfl
  | field a => cases a <;> rfl

/-- The hollow of a part, its reference and the parts below determine it. -/
theorem eq_of_below {x y : Part} (hollow : x.hollow = y.hollow)
    (reference : x.reference? = y.reference?) (below : x.below = y.below) : x = y := by
  cases x with
  | reference r =>
    cases y with
    | reference r' => exact congrArg Part.reference (Option.some.inj reference)
    | schema b => cases hollow
  | schema a =>
    cases y with
    | reference r' => cases hollow
    | schema b =>
      refine congrArg Part.schema (Schema.eq_of_parts (schema.inj hollow) ?_)
      rw [parts_eq, parts_eq, reference, below]

end Part

theorem Node.below_composed (parent child : Option Node) (interfaces : List RefNode)
    (inline : List Node) (extra : Members) :
    (Node.composed parent child interfaces inline extra).part.below
      = parent.toList.map Node.part ++ (child.toList.map Node.part ++
        (interfaces.map Part.reference ++ inline.map Node.part)) := rfl

theorem Node.below_object (properties : Option (List (String × Field))) (additional : Option Field)
    (oneOf anyOf : Option (List Field)) (negated : Option Field) (extra : Members) :
    (Node.object properties additional oneOf anyOf negated extra).part.below
      = properties.toList.flatMap (List.map fun field => field.2.part) ++
        (additional.toList.map Field.part ++ (oneOf.toList.flatMap (List.map Field.part) ++
          (anyOf.toList.flatMap (List.map Field.part) ++ negated.toList.map Field.part))) := rfl

section Wrap

variable {α : Type} {wrap : α → Part} {y : Part}

theorem exists_of_mem_map_toList {x : Option α} (member : y ∈ x.toList.map wrap) :
    ∃ a, x = some a ∧ wrap a = y := by
  simpa using member

theorem exists_of_mem_flatMap_toList {x : Option (List α)}
    (member : y ∈ x.toList.flatMap (List.map wrap)) : ∃ xs, x = some xs ∧ ∃ a ∈ xs, wrap a = y := by
  simpa using member

theorem mem_flatMap_some {xs : List α} {a : α} (member : a ∈ xs) :
    wrap a ∈ (some xs).toList.flatMap (List.map wrap) := by
  simpa using ⟨a, member, rfl⟩

end Wrap

/-! ### Where a schema ends -/

namespace Part

section Size

variable {α : Type} [SizeOf α] {wrap : α → Part} {y : Part}

theorem sizeOf_lt_of_mem_map (size : ∀ a, sizeOf (wrap a) ≤ sizeOf a + 2) {xs : List α}
    (member : y ∈ xs.map wrap) : sizeOf y < sizeOf xs + 2 := by
  obtain ⟨a, isItem, rfl⟩ := List.mem_map.1 member
  have small := List.sizeOf_lt_of_mem isItem
  have wrapped := size a
  omega

theorem sizeOf_lt_of_mem_toList (size : ∀ a, sizeOf (wrap a) ≤ sizeOf a + 2) {x : Option α}
    (member : y ∈ x.toList.map wrap) : sizeOf y < sizeOf x + 2 := by
  obtain ⟨a, rfl, rfl⟩ := exists_of_mem_map_toList member
  have wrapped := size a
  rw [Option.some.sizeOf_spec]
  omega

theorem sizeOf_lt_of_mem_flatMap (size : ∀ a, sizeOf (wrap a) ≤ sizeOf a + 2)
    {x : Option (List α)} (member : y ∈ x.toList.flatMap (List.map wrap)) :
    sizeOf y < sizeOf x + 2 := by
  obtain ⟨xs, rfl, a, isItem, rfl⟩ := exists_of_mem_flatMap_toList member
  have small := sizeOf_lt_of_mem_map size (List.mem_map_of_mem isItem)
  rw [Option.some.sizeOf_spec]
  omega

theorem sizeOf_node_part (a : Node) : sizeOf a.part = sizeOf a + 2 := by
  simp only [Node.part, schema.sizeOf_spec, Schema.node.sizeOf_spec]
  omega

theorem sizeOf_field_part (a : Field) : sizeOf a.part = sizeOf a + 2 := by
  simp only [Field.part, schema.sizeOf_spec, Schema.field.sizeOf_spec]
  omega

end Size

theorem sizeOf_lt_of_mem_node {a : Node} {y : Part} (member : y ∈ a.part.below) :
    sizeOf y < sizeOf a + 2 := by
  have node (a : Node) := Nat.le_of_eq (sizeOf_node_part a)
  have field (a : Field) := Nat.le_of_eq (sizeOf_field_part a)
  have named (a : String × Field) : sizeOf a.2.part ≤ sizeOf a + 2 := by
    have small := field a.2
    have whole : sizeOf a = 1 + sizeOf a.1 + sizeOf a.2 := rfl
    omega
  have reference (r : RefNode) : sizeOf (Part.reference r) ≤ sizeOf r + 2 := by
    simp only [reference.sizeOf_spec]
    omega
  cases a with
  | ref | plain => cases member
  | array items extra =>
    have small := sizeOf_lt_of_mem_toList field member
    rw [Node.array.sizeOf_spec]
    omega
  | composed parent child interfaces inline extra =>
    simp only [Node.below_composed, List.mem_append] at member
    rw [Node.composed.sizeOf_spec]
    rcases member with member | member | member | member
    · have small := sizeOf_lt_of_mem_toList node member
      omega
    · have small := sizeOf_lt_of_mem_toList node member
      omega
    · have small := sizeOf_lt_of_mem_map reference member
      omega
    · have small := sizeOf_lt_of_mem_map node member
      omega
  | object properties additional oneOf anyOf negated extra =>
    simp only [Node.below_object, List.mem_append] at member
    rw [Node.object.sizeOf_spec]
    rcases member with member | member | member | member | member
    · have small := sizeOf_lt_of_mem_flatMap named member
      omega
    · have small := sizeOf_lt_of_mem_toList field member
      omega
    · have small := sizeOf_lt_of_mem_flatMap field member
      omega
    · have small := sizeOf_lt_of_mem_flatMap field member
      omega
    · have small := sizeOf_lt_of_mem_toList field member
      omega

theorem sizeOf_lt_of_mem_field {a : Field} {y : Part} (member : y ∈ a.part.below) :
    sizeOf y < sizeOf a + 2 := by
  cases a with
  | ref | primitive | plain => cases member
  | array items extra =>
    have small := sizeOf_lt_of_mem_toList (fun a => Nat.le_of_eq (sizeOf_field_part a)) member
    rw [Field.array.sizeOf_spec]
    omega
  | map additional extra =>
    obtain rfl := List.mem_singleton.1 member
    rw [sizeOf_field_part, Field.map.sizeOf_spec]
    omega
  | schema inner =>
    obtain rfl := List.mem_singleton.1 member
    rw [sizeOf_node_part, Field.schema.sizeOf_spec]
    omega

/-- What stands below a part is smaller. -/
theorem sizeOf_lt_of_mem_below {x y : Part} (member : y ∈ x.below) : sizeOf y < sizeOf x := by
  cases x with
  | reference r => cases member
  | schema a =>
    cases a with
    | node a => exact sizeOf_node_part a ▸ sizeOf_lt_of_mem_node member
    | field a => exact sizeOf_field_part a ▸ sizeOf_lt_of_mem_field member

/-- Induction on the parts below a part. -/
@[elab_as_elim]
theorem induction_below {motive : Part → Prop}
    (part : ∀ x : Part, (∀ y ∈ x.below, motive y) → motive x) (x : Part) : motive x :=
  part x fun y _ => induction_below part y
termination_by sizeOf x
decreasing_by exact sizeOf_lt_of_mem_below ‹_ ∈ _›

end Part

end SchemaBundle
