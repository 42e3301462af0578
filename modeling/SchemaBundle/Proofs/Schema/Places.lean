import Mathlib.Data.List.Forall2
import SchemaBundle.Proofs.Schema.Part

/-!
# The references of a schema and their places

The interpreted references of a schema stand at places: a place is the list of steps that lead from
the schema to the reference. `Node.refAt?` reads the reference at a place, and `Node.mapRefs`
changes every reference and nothing else. `levels` counts what a walk has to enter below the schema
to see the reference. A step leads to a part below (`Part.partAt?` and `Part.mem_below_iff`), so a
place is read one step at a time (`Part.refAt?_cons`).

`Node.RelWithin R cut room a b` says that `b` is `a` with its references changed as `R` allows,
where a walk with some room changes references: what lies beyond the room is the same, and then
`cut` holds. Part by part it says that the hollow is the same, that the reference of a part is
changed as `R` allows, and that the parts below are changed with a level less
(`Part.RelWithin.relBelow`). So it is read in two ways.

* Place by place: the two schemas have references at the same places; those within the room are
  related by `R`, and those beyond it are equal (`Node.RelWithin.refAt?`).
* As a whole: if nothing was cut and `R` says what a reference becomes, then `b` is `a` with every
  reference changed so (`Node.RelWithin.eq_mapRefs`).
-/

namespace SchemaBundle

/-! ## Places -/

/-- A step from a schema to one of its parts. Fields are counted in the order of their names. -/
inductive PlaceStep
  | items
  | parent
  | child
  | interface (index : Nat)
  | inline (index : Nat)
  | property (index : Nat)
  | additional
  | oneOf (index : Nat)
  | anyOf (index : Nat)
  | negated
  /-- From a field to the inline schema that it is. -/
  | schema
  deriving DecidableEq, Repr

/-- The levels that lead to a place, below the first. An interface is a reference of its composition
and is met together with it. -/
def levels : List PlaceStep → Nat
  | [] => 0
  | .interface _ :: rest => levels rest
  | _ :: rest => levels rest + 1

mutual

/-- The interpreted reference at a place of a definition. -/
def Node.refAt? : List PlaceStep → Node → Option RefNode
  | [], .ref r => some r
  | .items :: rest, .array (some field) _ => Field.refAt? rest field
  | .parent :: rest, .composed (some node) _ _ _ _ => Node.refAt? rest node
  | .child :: rest, .composed _ (some node) _ _ _ => Node.refAt? rest node
  | .interface i :: rest, .composed _ _ interfaces _ _ =>
    if rest.isEmpty then interfaces[i]? else none
  | .inline i :: rest, .composed _ _ _ inline _ => inline[i]?.bind (Node.refAt? rest)
  | .property i :: rest, .object (some fields) _ _ _ _ _ =>
    fields[i]?.bind fun field => Field.refAt? rest field.2
  | .additional :: rest, .object _ (some field) _ _ _ _ => Field.refAt? rest field
  | .oneOf i :: rest, .object _ _ (some fields) _ _ _ => fields[i]?.bind (Field.refAt? rest)
  | .anyOf i :: rest, .object _ _ _ (some fields) _ _ => fields[i]?.bind (Field.refAt? rest)
  | .negated :: rest, .object _ _ _ _ (some field) _ => Field.refAt? rest field
  | _, _ => none

/-- The interpreted reference at a place of a field. -/
def Field.refAt? : List PlaceStep → Field → Option RefNode
  | [], .ref r => some r
  | .items :: rest, .array (some field) _ => Field.refAt? rest field
  | .additional :: rest, .map field _ => Field.refAt? rest field
  | .schema :: rest, .schema node => Node.refAt? rest node
  | _, _ => none

end

/-! ### Step by step -/

/-- The part of a definition that a step leads to. -/
def Node.partAt? : PlaceStep → Node → Option Part
  | .items, .array items _ => items.map Field.part
  | .parent, .composed parent _ _ _ _ => parent.map Node.part
  | .child, .composed _ child _ _ _ => child.map Node.part
  | .interface i, .composed _ _ interfaces _ _ => interfaces[i]?.map Part.reference
  | .inline i, .composed _ _ _ inline _ => inline[i]?.map Node.part
  | .property i, .object properties _ _ _ _ _ =>
    properties.bind fun fields => fields[i]?.map fun field => field.2.part
  | .additional, .object _ additional _ _ _ _ => additional.map Field.part
  | .oneOf i, .object _ _ oneOf _ _ _ => oneOf.bind fun fields => fields[i]?.map Field.part
  | .anyOf i, .object _ _ _ anyOf _ _ => anyOf.bind fun fields => fields[i]?.map Field.part
  | .negated, .object _ _ _ _ negated _ => negated.map Field.part
  | _, _ => none

/-- The part of a field that a step leads to. -/
def Field.partAt? : PlaceStep → Field → Option Part
  | .items, .array items _ => items.map Field.part
  | .additional, .map additional _ => some additional.part
  | .schema, .schema node => some node.part
  | _, _ => none

theorem PlaceStep.exists_iff {p : PlaceStep → Prop} :
    (∃ step, p step) ↔ p .items ∨ p .parent ∨ p .child ∨ (∃ i, p (.interface i)) ∨
      (∃ i, p (.inline i)) ∨ (∃ i, p (.property i)) ∨ p .additional ∨ (∃ i, p (.oneOf i)) ∨
      (∃ i, p (.anyOf i)) ∨ p .negated ∨ p .schema := by
  constructor
  · rintro ⟨step, h⟩
    cases step <;> grind
  · grind

namespace Part

/-- The part that a step leads to. -/
def partAt? (step : PlaceStep) : Part → Option Part
  | .schema (.node a) => a.partAt? step
  | .schema (.field a) => a.partAt? step
  | .reference _ => none

/-- The interpreted reference at a place of a part. -/
def refAt? (place : List PlaceStep) : Part → Option RefNode
  | .schema (.node a) => a.refAt? place
  | .schema (.field a) => a.refAt? place
  | .reference r => if place.isEmpty then some r else none

/-- The levels that a part stands below the schema that it is a part of. -/
def lift : Part → Nat
  | .schema _ => 1
  | .reference _ => 0

theorem lift_le_one (x : Part) : x.lift ≤ 1 := by
  cases x <;> simp [lift]

theorem refAt?_nil (x : Part) : x.refAt? [] = x.reference? := by
  cases x with
  | reference r => rfl
  | schema a =>
    cases a with
    | node a => cases a <;> rfl
    | field a => cases a <;> rfl

theorem bind_eq_bind_map {α β : Type} {x : Option α} {wrap : α → Part} {f : α → Option β}
    {g : Part → Option β} (h : ∀ a, f a = g (wrap a)) : x.bind f = (x.map wrap).bind g := by
  cases x with
  | none => rfl
  | some a => exact h a

/-- A place is read one step at a time. -/
theorem refAt?_cons (step : PlaceStep) (rest : List PlaceStep) (x : Part) :
    x.refAt? (step :: rest) = (x.partAt? step).bind (refAt? rest) := by
  cases x with
  | reference r => rfl
  | schema a =>
    cases a with
    | node a =>
      cases a with
      | ref | plain => cases step <;> rfl
      | array items extra => cases items <;> cases step <;> rfl
      | composed parent child interfaces inline extra =>
        cases step with
        | parent => cases parent <;> rfl
        | child => cases child <;> rfl
        | interface i =>
          simp only [refAt?, Node.refAt?, partAt?, Node.partAt?]
          cases rest <;> cases interfaces[i]? <;> rfl
        | inline i => exact bind_eq_bind_map fun _ => rfl
        | _ => rfl
      | object properties additional oneOf anyOf negated extra =>
        cases step with
        | property i =>
          cases properties with
          | none => rfl
          | some fields => exact bind_eq_bind_map fun _ => rfl
        | additional => cases additional <;> rfl
        | oneOf i =>
          cases oneOf with
          | none => rfl
          | some fields => exact bind_eq_bind_map fun _ => rfl
        | anyOf i =>
          cases anyOf with
          | none => rfl
          | some fields => exact bind_eq_bind_map fun _ => rfl
        | negated => cases negated <;> rfl
        | _ => rfl
    | field a =>
      cases a with
      | ref | primitive | plain => cases step <;> rfl
      | array items extra => cases items <;> cases step <;> rfl
      | map | schema => cases step <;> rfl

section Steps

variable {α : Type} {wrap : α → Part} {y : Part}

theorem mem_map_toList {x : Option α} : y ∈ x.toList.map wrap ↔ x.map wrap = some y := by
  cases x <;> simp [eq_comm]

theorem mem_map_iff (xs : List α) :
    y ∈ xs.map wrap ↔ ∃ i : Nat, xs[i]?.map wrap = some y := by
  simp [List.mem_iff_getElem?]

theorem mem_flatMap_toList {x : Option (List α)} :
    y ∈ x.toList.flatMap (List.map wrap)
      ↔ ∃ i : Nat, (x.bind fun xs => xs[i]?.map wrap) = some y := by
  cases x <;> simp [List.mem_iff_getElem?]

end Steps

theorem lift_of_partAt? {step : PlaceStep} {x y : Part} (found : x.partAt? step = some y) :
    x.lift = 1 := by
  cases x with
  | schema a => rfl
  | reference r => cases found

/-- A step leads a level below, unless it leads to a reference. -/
theorem levels_cons {step : PlaceStep} {x y : Part} (found : x.partAt? step = some y)
    (rest : List PlaceStep) : levels (step :: rest) = levels rest + y.lift := by
  cases x with
  | reference r => cases found
  | schema a =>
    cases a with
    | node a =>
      cases a <;> cases step <;>
        simp only [partAt?, Node.partAt?, Option.map_eq_some_iff, Option.bind_eq_some_iff,
          reduceCtorEq] at found <;> grind [levels, lift, Node.part, Field.part]
    | field a =>
      cases a <;> cases step <;>
        simp only [partAt?, Field.partAt?, Option.map_eq_some_iff, Option.some.injEq,
          reduceCtorEq] at found <;> grind [levels, lift, Node.part, Field.part]

/-- The parts below a part are those that a step leads to. -/
theorem mem_below_iff {x y : Part} : y ∈ x.below ↔ ∃ step, x.partAt? step = some y := by
  rw [PlaceStep.exists_iff]
  cases x with
  | reference r => simp [below, partAt?]
  | schema a =>
    cases a with
    | node a =>
      cases a with
      | composed parent child interfaces inline extra =>
        simp [below, Schema.drop, Schema.parts, Node.parts, partAt?, Node.partAt?, mem_map_toList,
          mem_map_iff interfaces, mem_map_iff inline, -List.mem_map]
      | _ =>
        simp [below, Schema.drop, Schema.parts, Node.parts, partAt?, Node.partAt?, mem_map_toList,
          mem_flatMap_toList, -List.mem_map, -List.mem_flatMap]
    | field a =>
      cases a <;> simp [below, Schema.drop, Schema.parts, Field.parts, partAt?, Field.partAt?,
        mem_map_toList, -List.mem_map, eq_comm]

end Part

/-! ## Changing every reference -/

mutual

/-- A definition with every interpreted reference changed. -/
def Node.mapRefs (f : RefNode → RefNode) : Node → Node
  | .ref r => .ref (f r)
  | .array items extra => .array (Field.mapRefsOfOption f items) extra
  | .composed parent child interfaces inline extra =>
    .composed (Node.mapRefsOfOption f parent) (Node.mapRefsOfOption f child) (interfaces.map f)
      (Node.mapRefsOfList f inline) extra
  | .object properties additional oneOf anyOf negated extra =>
    .object (Field.mapRefsOfNamed f properties) (Field.mapRefsOfOption f additional)
      (Field.mapRefsOfOptionList f oneOf) (Field.mapRefsOfOptionList f anyOf)
      (Field.mapRefsOfOption f negated) extra
  | .plain value => .plain value

/-- The same in a node that may be missing. -/
def Node.mapRefsOfOption (f : RefNode → RefNode) : Option Node → Option Node
  | none => none
  | some node => some (Node.mapRefs f node)

/-- The same in every node. -/
def Node.mapRefsOfList (f : RefNode → RefNode) : List Node → List Node
  | [] => []
  | node :: rest => Node.mapRefs f node :: Node.mapRefsOfList f rest

/-- A field with every interpreted reference changed. -/
def Field.mapRefs (f : RefNode → RefNode) : Field → Field
  | .ref r => .ref (f r)
  | .array items extra => .array (Field.mapRefsOfOption f items) extra
  | .map additional extra => .map (Field.mapRefs f additional) extra
  | .schema node => .schema (Node.mapRefs f node)
  | .primitive extra => .primitive extra
  | .plain value => .plain value

/-- The same in a field that may be missing. -/
def Field.mapRefsOfOption (f : RefNode → RefNode) : Option Field → Option Field
  | none => none
  | some field => some (Field.mapRefs f field)

/-- The same in every field. -/
def Field.mapRefsOfList (f : RefNode → RefNode) : List Field → List Field
  | [] => []
  | field :: rest => Field.mapRefs f field :: Field.mapRefsOfList f rest

/-- The same in a list of fields that may be missing. -/
def Field.mapRefsOfOptionList (f : RefNode → RefNode) : Option (List Field) → Option (List Field)
  | none => none
  | some fields => some (Field.mapRefsOfList f fields)

/-- The same in every named field. -/
def Field.mapRefsOfEntries (f : RefNode → RefNode) :
    List (String × Field) → List (String × Field)
  | [] => []
  | (name, field) :: rest => (name, Field.mapRefs f field) :: Field.mapRefsOfEntries f rest

/-- The same in a map of fields that may be missing. -/
def Field.mapRefsOfNamed (f : RefNode → RefNode) :
    Option (List (String × Field)) → Option (List (String × Field))
  | none => none
  | some fields => some (Field.mapRefsOfEntries f fields)

end

@[simp] theorem Node.mapRefsOfOption_eq (f : RefNode → RefNode) (node : Option Node) :
    Node.mapRefsOfOption f node = node.map (Node.mapRefs f) := by
  cases node <;> rfl

@[simp] theorem Node.mapRefsOfList_eq (f : RefNode → RefNode) (nodes : List Node) :
    Node.mapRefsOfList f nodes = nodes.map (Node.mapRefs f) := by
  induction nodes with
  | nil => rfl
  | cons node rest ih => simp [Node.mapRefsOfList, ih]

@[simp] theorem Field.mapRefsOfOption_eq (f : RefNode → RefNode) (field : Option Field) :
    Field.mapRefsOfOption f field = field.map (Field.mapRefs f) := by
  cases field <;> rfl

@[simp] theorem Field.mapRefsOfList_eq (f : RefNode → RefNode) (fields : List Field) :
    Field.mapRefsOfList f fields = fields.map (Field.mapRefs f) := by
  induction fields with
  | nil => rfl
  | cons field rest ih => simp [Field.mapRefsOfList, ih]

@[simp] theorem Field.mapRefsOfOptionList_eq (f : RefNode → RefNode)
    (fields : Option (List Field)) :
    Field.mapRefsOfOptionList f fields = fields.map (List.map (Field.mapRefs f)) := by
  cases fields <;> simp [Field.mapRefsOfOptionList]

@[simp] theorem Field.mapRefsOfEntries_eq (f : RefNode → RefNode)
    (fields : List (String × Field)) :
    Field.mapRefsOfEntries f fields
      = fields.map fun field => (field.1, Field.mapRefs f field.2) := by
  induction fields with
  | nil => rfl
  | cons field rest ih =>
    obtain ⟨name, field⟩ := field
    simp [Field.mapRefsOfEntries, ih]

@[simp] theorem Field.mapRefsOfNamed_eq (f : RefNode → RefNode)
    (fields : Option (List (String × Field))) :
    Field.mapRefsOfNamed f fields
      = fields.map (List.map fun field => (field.1, Field.mapRefs f field.2)) := by
  cases fields <;> simp [Field.mapRefsOfNamed]

namespace Part

variable (f : RefNode → RefNode)

/-- A part with every reference in it changed. -/
def mapRefs (f : RefNode → RefNode) : Part → Part
  | .schema (.node a) => .schema (.node (a.mapRefs f))
  | .schema (.field a) => .schema (.field (a.mapRefs f))
  | .reference r => .reference (f r)

@[simp] theorem mapRefs_node (a : Node) :
    mapRefs f (.schema (.node a)) = .schema (.node (a.mapRefs f)) := rfl

@[simp] theorem mapRefs_field (a : Field) :
    mapRefs f (.schema (.field a)) = .schema (.field (a.mapRefs f)) := rfl

@[simp] theorem mapRefs_reference (r : RefNode) :
    mapRefs f (.reference r) = .reference (f r) := rfl

@[simp] theorem hollow_mapRefs (x : Part) : (x.mapRefs f).hollow = x.hollow := by
  cases x with
  | reference r => rfl
  | schema a =>
    cases a with
    | node a =>
      cases a <;> simp [hollow, Schema.hollow, Node.hollow, Node.mapRefs, Function.comp_def,
        -List.map_const']
    | field a =>
      cases a <;> simp [hollow, Schema.hollow, Field.hollow, Field.mapRefs, Function.comp_def]

@[simp] theorem reference?_mapRefs (x : Part) : (x.mapRefs f).reference? = x.reference?.map f := by
  cases x with
  | reference r => rfl
  | schema a =>
    cases a with
    | node a => cases a <;> rfl
    | field a => cases a <;> rfl

theorem below_mapRefs (x : Part) : (x.mapRefs f).below = x.below.map (mapRefs f) := by
  cases x with
  | reference r => rfl
  | schema a =>
    cases a with
    | node a =>
      cases a <;> simp [below, Schema.drop, Schema.parts, Node.parts, Node.part, Field.part,
        Node.mapRefs, Option.toList_map, List.map_flatMap, List.flatMap_map, Function.comp_def]
    | field a =>
      cases a <;> simp [below, Schema.drop, Schema.parts, Field.parts, Node.part, Field.part,
        Field.mapRefs, Option.toList_map, Function.comp_def]

theorem partAt?_mapRefs (step : PlaceStep) (x : Part) :
    (x.mapRefs f).partAt? step = (x.partAt? step).map (mapRefs f) := by
  cases x with
  | reference r => rfl
  | schema a =>
    cases a with
    | node a =>
      cases a <;> cases step <;> simp [partAt?, Node.partAt?, Node.mapRefs, Node.part, Field.part,
        Option.map_bind, Option.bind_map, Function.comp_def]
    | field a =>
      cases a <;> cases step <;> simp [partAt?, Field.partAt?, Field.mapRefs, Node.part, Field.part,
        Function.comp_def]

/-- The references stay at their places. -/
theorem refAt?_mapRefs (place : List PlaceStep) (x : Part) :
    (x.mapRefs f).refAt? place = (x.refAt? place).map f := by
  induction place generalizing x with
  | nil => rw [refAt?_nil, refAt?_nil, reference?_mapRefs]
  | cons step rest ih =>
    rw [refAt?_cons, refAt?_cons, partAt?_mapRefs]
    cases x.partAt? step with
    | none => rfl
    | some y => exact ih y

end Part

/-! ## Changes within some room -/

mutual

/-- `b` is `a` with its references changed as `R` allows, as far as there is room: one level of it
for the definition itself and one for each step of a place. Interfaces are references of their
composition and need no room of their own. Beyond the room nothing differs, and `cut` holds. -/
def Node.RelWithin (R : RefNode → RefNode → Prop) (cut : Prop) : Nat → Node → Node → Prop
  | 0, a, b => b = a ∧ cut
  | _ + 1, .ref r, b => ∃ r', b = .ref r' ∧ R r r'
  | room + 1, .array items extra, b =>
    ∃ items', b = .array items' extra ∧ Option.Rel (Field.RelWithin R cut room) items items'
  | room + 1, .composed parent child interfaces inline extra, b =>
    ∃ parent' child' interfaces' inline', b = .composed parent' child' interfaces' inline' extra
      ∧ Option.Rel (Node.RelWithin R cut room) parent parent'
      ∧ Option.Rel (Node.RelWithin R cut room) child child'
      ∧ List.Forall₂ R interfaces interfaces'
      ∧ List.Forall₂ (Node.RelWithin R cut room) inline inline'
  | room + 1, .object properties additional oneOf anyOf negated extra, b =>
    ∃ properties' additional' oneOf' anyOf' negated',
      b = .object properties' additional' oneOf' anyOf' negated' extra
      ∧ Option.Rel (List.Forall₂ fun field field' =>
          field'.1 = field.1 ∧ Field.RelWithin R cut room field.2 field'.2) properties properties'
      ∧ Option.Rel (Field.RelWithin R cut room) additional additional'
      ∧ Option.Rel (List.Forall₂ (Field.RelWithin R cut room)) oneOf oneOf'
      ∧ Option.Rel (List.Forall₂ (Field.RelWithin R cut room)) anyOf anyOf'
      ∧ Option.Rel (Field.RelWithin R cut room) negated negated'
  | _ + 1, .plain value, b => b = .plain value

/-- The same for fields. -/
def Field.RelWithin (R : RefNode → RefNode → Prop) (cut : Prop) : Nat → Field → Field → Prop
  | 0, a, b => b = a ∧ cut
  | _ + 1, .ref r, b => ∃ r', b = .ref r' ∧ R r r'
  | room + 1, .array items extra, b =>
    ∃ items', b = .array items' extra ∧ Option.Rel (Field.RelWithin R cut room) items items'
  | room + 1, .map additional extra, b =>
    ∃ additional', b = .map additional' extra ∧ Field.RelWithin R cut room additional additional'
  | room + 1, .schema node, b =>
    ∃ node', b = .schema node' ∧ Node.RelWithin R cut room node node'
  | _ + 1, .primitive extra, b => b = .primitive extra
  | _ + 1, .plain value, b => b = .plain value

end

section RelWithin

variable {R S : RefNode → RefNode → Prop} {cut cut' : Prop}

theorem optionRel_mono {α β : Type} {P Q : α → β → Prop} (h : ∀ a b, P a b → Q a b)
    {x : Option α} {y : Option β} (hxy : Option.Rel P x y) : Option.Rel Q x y := by
  cases hxy with
  | none => exact .none
  | some hab => exact .some (h _ _ hab)

theorem relWithin_mono (hR : ∀ r r', R r r' → S r r') (hcut : cut → cut') (room : Nat) :
    (∀ a b, Node.RelWithin R cut room a b → Node.RelWithin S cut' room a b) ∧
      (∀ a b, Field.RelWithin R cut room a b → Field.RelWithin S cut' room a b) := by
  induction room with
  | zero => exact ⟨fun a b h => ⟨h.1, hcut h.2⟩, fun a b h => ⟨h.1, hcut h.2⟩⟩
  | succ room ih =>
    obtain ⟨node, field⟩ := ih
    constructor
    · intro a b h
      cases a with
      | ref r =>
        obtain ⟨r', rfl, h⟩ := h
        exact ⟨r', rfl, hR _ _ h⟩
      | array items extra =>
        obtain ⟨items', rfl, h⟩ := h
        exact ⟨items', rfl, optionRel_mono field h⟩
      | composed parent child interfaces inline extra =>
        obtain ⟨parent', child', interfaces', inline', rfl, hp, hc, hi, hm⟩ := h
        exact ⟨parent', child', interfaces', inline', rfl, optionRel_mono node hp,
          optionRel_mono node hc, hi.imp hR, hm.imp node⟩
      | object properties additional oneOf anyOf negated extra =>
        obtain ⟨properties', additional', oneOf', anyOf', negated', rfl, hp, ha, ho, hy, hn⟩ := h
        exact ⟨properties', additional', oneOf', anyOf', negated', rfl,
          optionRel_mono (fun _ _ h => h.imp fun _ _ h => ⟨h.1, field _ _ h.2⟩) hp,
          optionRel_mono field ha, optionRel_mono (fun _ _ h => h.imp field) ho,
          optionRel_mono (fun _ _ h => h.imp field) hy, optionRel_mono field hn⟩
      | plain value => exact h
    · intro a b h
      cases a with
      | ref r =>
        obtain ⟨r', rfl, h⟩ := h
        exact ⟨r', rfl, hR _ _ h⟩
      | array items extra =>
        obtain ⟨items', rfl, h⟩ := h
        exact ⟨items', rfl, optionRel_mono field h⟩
      | map additional extra =>
        obtain ⟨additional', rfl, h⟩ := h
        exact ⟨additional', rfl, field _ _ h⟩
      | schema inner =>
        obtain ⟨inner', rfl, h⟩ := h
        exact ⟨inner', rfl, node _ _ h⟩
      | primitive extra => exact h
      | plain value => exact h

theorem Node.RelWithin.mono {room : Nat} {a b : Node} (h : Node.RelWithin R cut room a b)
    (hR : ∀ r r', R r r' → S r r') (hcut : cut → cut') : Node.RelWithin S cut' room a b :=
  (relWithin_mono hR hcut room).1 a b h

theorem Field.RelWithin.mono {room : Nat} {a b : Field} (h : Field.RelWithin R cut room a b)
    (hR : ∀ r r', R r r' → S r r') (hcut : cut → cut') : Field.RelWithin S cut' room a b :=
  (relWithin_mono hR hcut room).2 a b h

/-! ### Part by part -/

section MapEq

variable {α β : Type}

theorem map_eq_of_optionRel {P : α → α → Prop} (f : α → β) (h : ∀ a b, P a b → f b = f a)
    {x y : Option α} (hxy : Option.Rel P x y) : y.map f = x.map f := by
  cases hxy with
  | none => rfl
  | some hab => exact congrArg some (h _ _ hab)

theorem map_eq_of_forall₂ {P : α → α → Prop} (f : α → β) (h : ∀ a b, P a b → f b = f a)
    {xs ys : List α} (hxy : List.Forall₂ P xs ys) : ys.map f = xs.map f := by
  induction hxy with
  | nil => rfl
  | cons hab _ ih => rw [List.map_cons, List.map_cons, h _ _ hab, ih]

theorem map_eq_of_optionRel_forall₂ {P : α → α → Prop} (f : α → β) (h : ∀ a b, P a b → f b = f a)
    {x y : Option (List α)} (hxy : Option.Rel (List.Forall₂ P) x y) :
    y.map (List.map f) = x.map (List.map f) :=
  map_eq_of_optionRel (List.map f) (fun _ _ => map_eq_of_forall₂ f h) hxy

end MapEq

theorem optionRel_get {α : Type} {P : α → α → Prop} {xs ys : List α} (h : List.Forall₂ P xs ys)
    (i : Nat) : Option.Rel P xs[i]? ys[i]? := by
  induction h generalizing i with
  | nil => exact .none
  | cons hab _ ih =>
    cases i with
    | zero => exact .some hab
    | succ i => simpa using ih i

section Rel

variable {α β : Type} {P : α → α → Prop} {Q : β → β → Prop} {wrap : α → β}

theorem optionRel_map (h : ∀ a b, P a b → Q (wrap a) (wrap b)) {x y : Option α}
    (hxy : Option.Rel P x y) : Option.Rel Q (x.map wrap) (y.map wrap) := by
  cases hxy with
  | none => exact .none
  | some hab => exact .some (h _ _ hab)

theorem forall₂_map (h : ∀ a b, P a b → Q (wrap a) (wrap b)) {xs ys : List α}
    (hxy : List.Forall₂ P xs ys) : List.Forall₂ Q (xs.map wrap) (ys.map wrap) := by
  induction hxy with
  | nil => exact .nil
  | cons hab _ ih => exact .cons (h _ _ hab) ih

theorem forall₂_map_toList (h : ∀ a b, P a b → Q (wrap a) (wrap b)) {x y : Option α}
    (hxy : Option.Rel P x y) : List.Forall₂ Q (x.toList.map wrap) (y.toList.map wrap) := by
  cases hxy with
  | none => exact .nil
  | some hab => exact .cons (h _ _ hab) .nil

theorem forall₂_flatMap_toList (h : ∀ a b, P a b → Q (wrap a) (wrap b)) {x y : Option (List α)}
    (hxy : Option.Rel (List.Forall₂ P) x y) :
    List.Forall₂ Q (x.toList.flatMap (List.map wrap)) (y.toList.flatMap (List.map wrap)) := by
  cases hxy with
  | none => exact .nil
  | some hab => simpa using forall₂_map h hab

theorem optionRel_bind_get (h : ∀ a b, P a b → Q (wrap a) (wrap b)) {x y : Option (List α)}
    (hxy : Option.Rel (List.Forall₂ P) x y) (i : Nat) :
    Option.Rel Q (x.bind fun xs => xs[i]?.map wrap) (y.bind fun ys => ys[i]?.map wrap) := by
  cases hxy with
  | none => exact .none
  | some hab => exact optionRel_map h (optionRel_get hab i)

end Rel

/-- The same for parts. A reference is met together with the schema that it is a part of, so it
needs no room. -/
def Part.RelWithin (R : RefNode → RefNode → Prop) (cut : Prop) (room : Nat) : Part → Part → Prop
  | .schema (.node a), .schema (.node b) => Node.RelWithin R cut room a b
  | .schema (.field a), .schema (.field b) => Field.RelWithin R cut room a b
  | .reference r, .reference r' => R r r'
  | _, _ => False

/-- The part `y` is `x` with its reference changed as `R` allows and the parts below as `Q`
allows. -/
structure Part.RelBelow (R : RefNode → RefNode → Prop) (Q : Part → Part → Prop) (x y : Part) :
    Prop where
  hollow : y.hollow = x.hollow
  reference : Option.Rel R x.reference? y.reference?
  below : List.Forall₂ Q x.below y.below
  partAt (step : PlaceStep) : Option.Rel Q (x.partAt? step) (y.partAt? step)

section Below

variable {room : Nat}

theorem Node.RelWithin.relBelow {a b : Node} (h : Node.RelWithin R cut (room + 1) a b) :
    a.part.RelBelow R (Part.RelWithin R cut room) b.part := by
  let Q := Part.RelWithin R cut room
  have node (a b : Node) (h : Node.RelWithin R cut room a b) : Q a.part b.part := h
  have field (a b : Field) (h : Field.RelWithin R cut room a b) : Q a.part b.part := h
  cases a with
  | ref r =>
    obtain ⟨r', rfl, h⟩ := h
    exact ⟨rfl, .some h, .nil, fun step => by cases step <;> exact .none⟩
  | array items extra =>
    obtain ⟨items', rfl, h⟩ := h
    refine ⟨by cases h <;> rfl, .none, forall₂_map_toList field h, fun step => ?_⟩
    cases step with
    | items => exact optionRel_map field h
    | _ => exact .none
  | composed parent child interfaces inline extra =>
    obtain ⟨parent', child', interfaces', inline', rfl, hp, hc, hi, hm⟩ := h
    have reference (r r' : RefNode) (h : R r r') : Q (.reference r) (.reference r') := h
    have blank (x y : Node) (_ : Node.RelWithin R cut room x y) :
        (fun _ => default : Node → Node) y = (fun _ => default : Node → Node) x := rfl
    refine ⟨?_, .none, ?_, fun step => ?_⟩
    · simp only [Node.part, Part.hollow, Schema.hollow, Node.hollow, map_eq_of_optionRel _ blank hp,
        map_eq_of_optionRel _ blank hc,
        map_eq_of_forall₂ (fun _ => RefNode.blank) (fun _ _ _ => rfl) hi,
        map_eq_of_forall₂ _ blank hm]
    · exact List.rel_append (forall₂_map_toList node hp) (List.rel_append
        (forall₂_map_toList node hc) (List.rel_append (forall₂_map reference hi)
          (forall₂_map node hm)))
    · cases step with
      | parent => exact optionRel_map node hp
      | child => exact optionRel_map node hc
      | interface i => exact optionRel_map reference (optionRel_get hi i)
      | inline i => exact optionRel_map node (optionRel_get hm i)
      | _ => exact .none
  | object properties additional oneOf anyOf negated extra =>
    obtain ⟨properties', additional', oneOf', anyOf', negated', rfl, hp, ha, ho, hy, hn⟩ := h
    have named (x y : String × Field) (h : y.1 = x.1 ∧ Field.RelWithin R cut room x.2 y.2) :
        Q x.2.part y.2.part := h.2
    have names (x y : String × Field) (h : y.1 = x.1 ∧ Field.RelWithin R cut room x.2 y.2) :
        (y.1, (default : Field)) = (x.1, default) := by rw [h.1]
    have blank (x y : Field) (_ : Field.RelWithin R cut room x y) :
        (fun _ => default : Field → Field) y = (fun _ => default : Field → Field) x := rfl
    refine ⟨?_, .none, ?_, fun step => ?_⟩
    · simp only [Node.part, Part.hollow, Schema.hollow, Node.hollow,
        map_eq_of_optionRel_forall₂ _ names hp, map_eq_of_optionRel _ blank ha,
        map_eq_of_optionRel_forall₂ _ blank ho, map_eq_of_optionRel_forall₂ _ blank hy,
        map_eq_of_optionRel _ blank hn]
    · exact List.rel_append (forall₂_flatMap_toList named hp) (List.rel_append
        (forall₂_map_toList field ha) (List.rel_append (forall₂_flatMap_toList field ho)
          (List.rel_append (forall₂_flatMap_toList field hy) (forall₂_map_toList field hn))))
    · cases step with
      | property i => exact optionRel_bind_get named hp i
      | additional => exact optionRel_map field ha
      | oneOf i => exact optionRel_bind_get field ho i
      | anyOf i => exact optionRel_bind_get field hy i
      | negated => exact optionRel_map field hn
      | _ => exact .none
  | plain value =>
    obtain rfl : b = .plain value := h
    exact ⟨rfl, .none, .nil, fun step => by cases step <;> exact .none⟩

theorem Field.RelWithin.relBelow {a b : Field} (h : Field.RelWithin R cut (room + 1) a b) :
    a.part.RelBelow R (Part.RelWithin R cut room) b.part := by
  cases a with
  | ref r =>
    obtain ⟨r', rfl, h⟩ := h
    exact ⟨rfl, .some h, .nil, fun step => by cases step <;> exact .none⟩
  | array items extra =>
    obtain ⟨items', rfl, h⟩ := h
    have field (a b : Field) (h : Field.RelWithin R cut room a b) :
        Part.RelWithin R cut room a.part b.part := h
    refine ⟨by cases h <;> rfl, .none, forall₂_map_toList field h, fun step => ?_⟩
    cases step with
    | items => exact optionRel_map field h
    | _ => exact .none
  | map additional extra =>
    obtain ⟨additional', rfl, h⟩ := h
    refine ⟨rfl, .none, .cons h .nil, fun step => ?_⟩
    cases step with
    | additional => exact .some h
    | _ => exact .none
  | schema inner =>
    obtain ⟨inner', rfl, h⟩ := h
    refine ⟨rfl, .none, .cons h .nil, fun step => ?_⟩
    cases step with
    | schema => exact .some h
    | _ => exact .none
  | primitive extra =>
    obtain rfl : b = .primitive extra := h
    exact ⟨rfl, .none, .nil, fun step => by cases step <;> exact .none⟩
  | plain value =>
    obtain rfl : b = .plain value := h
    exact ⟨rfl, .none, .nil, fun step => by cases step <;> exact .none⟩

/-- Without room a schema stays what it is. -/
theorem Part.RelWithin.of_zero {x y : Part} (h : x.RelWithin R cut 0 y) :
    (∃ a, x = .schema a ∧ y = .schema a ∧ cut)
      ∨ ∃ r r', x = .reference r ∧ y = .reference r' ∧ R r r' := by
  match x, y, h with
  | .schema (.node a), .schema (.node b), h => exact .inl ⟨.node a, rfl, by rw [h.1], h.2⟩
  | .schema (.field a), .schema (.field b), h => exact .inl ⟨.field a, rfl, by rw [h.1], h.2⟩
  | .reference r, .reference r', h => exact .inr ⟨r, r', rfl, rfl, h⟩

/-- With some room the parts below change with a level less. -/
theorem Part.RelWithin.relBelow {x y : Part} (h : x.RelWithin R cut (room + 1) y) :
    x.RelBelow R (Part.RelWithin R cut room) y := by
  match x, y, h with
  | .schema (.node a), .schema (.node b), h => exact Node.RelWithin.relBelow h
  | .schema (.field a), .schema (.field b), h => exact Field.RelWithin.relBelow h
  | .reference r, .reference r', h => exact ⟨rfl, .some h, .nil, fun _ => .none⟩

/-- Nothing but references changes. -/
theorem Part.RelWithin.hollow {x y : Part} (h : x.RelWithin R cut room y) :
    y.hollow = x.hollow := by
  cases room with
  | zero => obtain ⟨a, rfl, rfl, -⟩ | ⟨r, r', rfl, rfl, -⟩ := h.of_zero <;> rfl
  | succ room => exact h.relBelow.hollow

end Below

/-! ### Place by place -/

/-- What `RelWithin` says of the references at one place. -/
def RelAt (R : RefNode → RefNode → Prop) (cut : Prop) (room : Nat) (place : List PlaceStep)
    (r r' : RefNode) : Prop :=
  levels place < room ∧ R r r' ∨ room ≤ levels place ∧ r' = r ∧ cut

theorem optionRel_refl {α : Type} {P : α → α → Prop} (h : ∀ a, P a a) :
    ∀ x : Option α, Option.Rel P x x
  | none => .none
  | some a => .some (h a)

theorem RelAt.cons {room : Nat} {step : PlaceStep} {rest : List PlaceStep} {y : Part}
    {r r' : RefNode} (deeper : levels (step :: rest) = levels rest + y.lift)
    (h : RelAt R cut (room + 1 - y.lift) rest r r') : RelAt R cut (room + 1) (step :: rest) r r' := by
  have small := y.lift_le_one
  obtain ⟨within, h⟩ | ⟨beyond, same⟩ := h
  · exact .inl ⟨by omega, h⟩
  · exact .inr ⟨by omega, same⟩

/-- Related parts have references at the same places. -/
theorem Part.RelWithin.refAt? {room : Nat} {x y : Part} (h : x.RelWithin R cut room y)
    (place : List PlaceStep) :
    Option.Rel (RelAt R cut (room + 1 - x.lift) place) (x.refAt? place) (y.refAt? place) := by
  induction room generalizing x y place with
  | zero =>
    obtain ⟨a, rfl, rfl, isCut⟩ | ⟨r, r', rfl, rfl, changed⟩ := h.of_zero
    · exact optionRel_refl (fun r => .inr ⟨Nat.zero_le _, rfl, isCut⟩) _
    · cases place with
      | nil => exact .some (.inl ⟨Nat.one_pos, changed⟩)
      | cons => exact .none
  | succ room ih =>
    have related := h.relBelow
    cases place with
    | nil =>
      have small := x.lift_le_one
      rw [refAt?_nil, refAt?_nil]
      exact optionRel_mono (fun r r' h => .inl ⟨by simp only [levels]; omega, h⟩) related.reference
    | cons step rest =>
      rw [refAt?_cons, refAt?_cons]
      match found : x.partAt? step, y.partAt? step, related.partAt step with
      | none, none, .none => exact .none
      | some z, some z', .some below =>
        rw [lift_of_partAt? found]
        exact optionRel_mono (fun r r' h => h.cons (levels_cons found rest)) (ih below rest)

/-- Related schemas have references at the same places. -/
theorem Node.RelWithin.refAt? {room : Nat} {a b : Node} (h : Node.RelWithin R cut room a b)
    (place : List PlaceStep) :
    Option.Rel (RelAt R cut room place) (Node.refAt? place a) (Node.refAt? place b) :=
  Part.RelWithin.refAt? (x := a.part) (y := b.part) h place

theorem Field.RelWithin.refAt? {room : Nat} {a b : Field} (h : Field.RelWithin R cut room a b)
    (place : List PlaceStep) :
    Option.Rel (RelAt R cut room place) (Field.refAt? place a) (Field.refAt? place b) :=
  Part.RelWithin.refAt? (x := a.part) (y := b.part) h place

theorem optionRel_left {α β : Type} {P : α → β → Prop} {x : Option α} {y : Option β} {a : α}
    (h : Option.Rel P x y) (found : x = some a) : ∃ b, y = some b ∧ P a b := by
  cases h with
  | none => cases found
  | some h =>
    cases found
    exact ⟨_, rfl, h⟩

theorem optionRel_right {α β : Type} {P : α → β → Prop} {x : Option α} {y : Option β} {b : β}
    (h : Option.Rel P x y) (found : y = some b) : ∃ a, x = some a ∧ P a b := by
  cases h with
  | none => cases found
  | some h =>
    cases found
    exact ⟨_, rfl, h⟩

theorem forall₂_left {α β : Type} {P : α → β → Prop} {xs : List α} {ys : List β} {a : α}
    (h : List.Forall₂ P xs ys) (member : a ∈ xs) : ∃ b ∈ ys, P a b := by
  induction h with
  | nil => cases member
  | cons hab _ ih =>
    rcases List.mem_cons.1 member with rfl | member
    · exact ⟨_, List.mem_cons_self .., hab⟩
    · obtain ⟨b, found, hb⟩ := ih member
      exact ⟨b, List.mem_cons_of_mem _ found, hb⟩

theorem forall₂_right {α β : Type} {P : α → β → Prop} {xs : List α} {ys : List β} {b : β}
    (h : List.Forall₂ P xs ys) (member : b ∈ ys) : ∃ a ∈ xs, P a b :=
  forall₂_left h.flip member

/-! ### As a whole -/

theorem eq_map_of_optionRel {α : Type} {P : α → α → Prop} {f : α → α}
    (h : ∀ a b, P a b → b = f a) {x y : Option α} (hxy : Option.Rel P x y) : y = x.map f := by
  cases hxy with
  | none => rfl
  | some hab => simp [h _ _ hab]

theorem eq_map_of_forall₂ {α : Type} {P : α → α → Prop} {f : α → α}
    (h : ∀ a b, P a b → b = f a) {xs ys : List α} (hxy : List.Forall₂ P xs ys) :
    ys = xs.map f := by
  induction hxy with
  | nil => rfl
  | cons hab _ ih => simp [h _ _ hab, ih]

theorem Part.RelWithin.eq_mapRefs {f : RefNode → RefNode} {room : Nat} {x y : Part}
    (h : x.RelWithin R cut room y) (hR : ∀ r r', R r r' → r' = f r) (hcut : ¬ cut) :
    y = x.mapRefs f := by
  induction room generalizing x y with
  | zero =>
    obtain ⟨a, rfl, rfl, isCut⟩ | ⟨r, r', rfl, rfl, changed⟩ := h.of_zero
    · exact absurd isCut hcut
    · rw [hR r r' changed, Part.mapRefs]
  | succ room ih =>
    obtain ⟨hollow, reference, below, -⟩ := h.relBelow
    apply Part.eq_of_below
    · rw [hollow, Part.hollow_mapRefs]
    · rw [eq_map_of_optionRel hR reference, Part.reference?_mapRefs]
    · rw [eq_map_of_forall₂ (fun _ _ h => ih h) below, Part.below_mapRefs]

/-- If nothing was cut and `R` says what a reference becomes, every reference has become that. -/
theorem Node.RelWithin.eq_mapRefs {f : RefNode → RefNode} {room : Nat} {a b : Node}
    (h : Node.RelWithin R cut room a b) (hR : ∀ r r', R r r' → r' = f r) (hcut : ¬ cut) :
    b = Node.mapRefs f a :=
  Node.part_injective (Part.RelWithin.eq_mapRefs (x := a.part) (y := b.part) h hR hcut)

end RelWithin

end SchemaBundle
