import SchemaBundle.Proofs.Resolve.Law

/-!
# A walk, part by part

A walk with some room visits the parts of a schema one after the other, with a level less, and
leaves the hollow as it is (`mapM_parts` and `hollow_walkSchema`). As both together determine a
schema, nothing else is needed to know what a walk does, so the shapes of schemas are of no concern
from here on.
-/

namespace SchemaBundle

namespace Walk

/-- Visit the references of a schema. -/
def walkSchema (setting : Setting) (room : Nat) (scope : Scope) : Schema → PassM Schema
  | .node a => Schema.node <$> walkNode setting room scope a
  | .field a => Schema.field <$> walkField setting room scope a

/-- Visit a part: look into a schema, or follow a reference. -/
def walkPart (setting : Setting) (room : Nat) (scope : Scope) : Part → PassM Part
  | .schema a => Part.schema <$> walkSchema setting room scope a
  | .reference r => Part.reference <$> walkInterface setting room scope r

section MapM

variable {α β : Type} {f : α → PassM β} {g : Part → PassM Part} {into : α → Part} {out : β → Part}

theorem mapM_map (h : ∀ a, g (into a) = out <$> f a) (xs : List α) :
    (xs.map into).mapM g = List.map out <$> xs.mapM f := by
  induction xs with
  | nil => rfl
  | cons a rest ih => simp [h, ih]

theorem mapM_toList (h : ∀ a, g (into a) = out <$> f a) (x : Option α) :
    (x.toList.map into).mapM g = (fun y => y.toList.map out) <$> x.mapM f := by
  cases x with
  | none => rfl
  | some a => simp [h]

theorem mapM_flatMap (h : ∀ a, g (into a) = out <$> f a) (x : Option (List α)) :
    (x.toList.flatMap (List.map into)).mapM g
      = (fun y => y.toList.flatMap (List.map out)) <$> x.mapM fun xs => xs.mapM f := by
  cases x with
  | none => rfl
  | some xs => simp [mapM_map h]

end MapM

variable (setting : Setting) (room : Nat) (scope : Scope)

theorem mapM_parts (a : Schema) :
    a.parts.mapM (walkPart setting (room + 1 - a.drop) scope)
      = Schema.parts <$> walkSchema setting (room + 1) scope a := by
  have node (a : Node) : walkPart setting room scope a.part
      = Node.part <$> walkNode setting room scope a := rfl
  have field (a : Field) : walkPart setting room scope a.part
      = Field.part <$> walkField setting room scope a := rfl
  have reference (r : RefNode) : walkPart setting room scope (.reference r)
      = Part.reference <$> walkInterface setting room scope r := rfl
  have named (a : String × Field) : walkPart setting room scope a.2.part
      = (fun b => b.2.part) <$> (do return (a.1, ← walkField setting room scope a.2)) := by
    simp [field]
  cases a with
  | node a =>
    cases a with
    | ref r =>
      simp [Schema.parts, Schema.drop, Node.parts, walkSchema, walkNode, walkPart, walkInterface]
    | array items extra =>
      simp [Schema.parts, Schema.drop, Node.parts, walkSchema, walkNode, mapM_toList field]
    | composed parent child interfaces inline extra =>
      simp [Schema.parts, Schema.drop, Node.parts, walkSchema, walkNode, mapM_toList node,
        mapM_map node, mapM_map reference]
    | object properties additional oneOf anyOf negated extra =>
      simp [Schema.parts, Schema.drop, Node.parts, walkSchema, walkNode, mapM_toList field,
        mapM_flatMap field, mapM_flatMap named]
    | plain value => rfl
  | field a =>
    cases a with
    | ref r =>
      simp [Schema.parts, Schema.drop, Field.parts, walkSchema, walkField, walkPart, walkInterface]
    | array items extra =>
      simp [Schema.parts, Schema.drop, Field.parts, walkSchema, walkField, mapM_toList field]
    | map additional extra =>
      simp [Schema.parts, Schema.drop, Field.parts, walkSchema, walkField, field]
    | schema inner =>
      simp [Schema.parts, Schema.drop, Field.parts, walkSchema, walkField, node]
    | primitive extra => rfl
    | plain value => rfl

/-- The law that says nothing but that references stay where they are. -/
def shape (setting : Setting) : WalkLaw setting where
  Inv _ := True
  Step _ _ _ := True
  Fit _ := True
  Done _ _ _ _ := True
  Cut _ _ := True
  step_nil _ := trivial
  step_append _ _ := trivial
  done_mono _ _ := trivial
  cut_mono _ _ := trivial
  tooDeep _ _ := ⟨trivial, trivial, trivial⟩
  follows _ _ _ _ := ⟨trivial, trivial, trivial⟩

/-- A walk changes the parts of a schema and nothing else. -/
theorem hollow_walkSchema (a : Schema) (p : Pass) :
    (walkSchema setting room scope a p).1.hollow = a.hollow := by
  cases a with
  | node a =>
    obtain ⟨-, -, related⟩ := (shape setting).walkNode room scope a trivial p trivial
    exact Part.schema.inj (Part.RelWithin.hollow (x := a.part) (y := Node.part _) related)
  | field a =>
    have fit : (shape setting).Fit scope := trivial
    obtain ⟨-, -, related⟩ := (shape setting).walkField room fit a p trivial
    exact Part.schema.inj (Part.RelWithin.hollow (x := a.part) (y := Field.part _) related)

end Walk

end SchemaBundle
