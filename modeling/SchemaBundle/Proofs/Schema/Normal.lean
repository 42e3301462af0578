import SchemaBundle.Document
import SchemaBundle.Proofs.Reference.Names
import SchemaBundle.Proofs.Schema.Places

/-!
# References as they are read

A schema that was read has its internal references in the form of local ones: a bare name was
expanded. `Node.allRefs_ofJson` says so of every place, by induction on the value that is read, and
`Document.isNormal_of_ofJson` of a whole document.
-/

namespace SchemaBundle

/-- An internal reference starts with a hash. -/
def RefNode.IsNormal (r : RefNode) : Prop :=
  r.format = .internal → r.reference.toList.head? = some '#'

theorem RefNode.isNormal_ofText (reference : String) (layout : Layout) (extra : Members) :
    (RefNode.ofText reference layout extra).IsNormal := by
  intro internal
  unfold ofText Reference.normalize at *
  dsimp only at *
  split at internal
  · rename_i bare
    rw [if_pos bare]
    exact layout.head?_localRef reference
  · rename_i written
    rw [if_neg written]
    simp only [not_and, not_not] at written
    exact written internal

/-! ## References at every place -/

/-- Every interpreted reference of a definition is as `P` says. -/
def Node.AllRefs (P : RefNode → Prop) (node : Node) : Prop :=
  ∀ place r, Node.refAt? place node = some r → P r

/-- Every interpreted reference of a field is as `P` says. -/
def Field.AllRefs (P : RefNode → Prop) (field : Field) : Prop :=
  ∀ place r, Field.refAt? place field = some r → P r

section AllRefs

variable {P : RefNode → Prop}

/-- Every interpreted reference of a part is as `P` says. -/
def Part.AllRefs (P : RefNode → Prop) (x : Part) : Prop :=
  ∀ place r, x.refAt? place = some r → P r

/-- The references of a part are the one that it is and those of the parts below. -/
theorem Part.allRefs_iff {x : Part} :
    x.AllRefs P ↔ (∀ r ∈ x.reference?, P r) ∧ ∀ y ∈ x.below, y.AllRefs P := by
  constructor
  · refine fun all => ⟨fun r isReference => all [] r ?_, fun y member rest r found => ?_⟩
    · rw [refAt?_nil, isReference]
    · obtain ⟨step, there⟩ := mem_below_iff.1 member
      exact all (step :: rest) r (by rw [refAt?_cons, there]; exact found)
  · rintro ⟨here, below⟩ (_ | ⟨step, rest⟩) r found
    · exact here r (refAt?_nil x ▸ found)
    · rw [refAt?_cons] at found
      obtain ⟨y, there, found⟩ := Option.bind_eq_some_iff.1 found
      exact below y (mem_below_iff.2 ⟨step, there⟩) rest r found

theorem Part.allRefs_reference {r : RefNode} : (Part.reference r).AllRefs P ↔ P r := by
  rw [Part.allRefs_iff]
  simp [Part.reference?, Part.below]

theorem Node.allRefs_iff {node : Node} :
    node.AllRefs P ↔ (∀ r ∈ node.part.reference?, P r) ∧ ∀ y ∈ node.part.below, y.AllRefs P :=
  Part.allRefs_iff (x := node.part)

theorem Field.allRefs_iff {field : Field} :
    field.AllRefs P ↔ (∀ r ∈ field.part.reference?, P r) ∧ ∀ y ∈ field.part.below, y.AllRefs P :=
  Part.allRefs_iff (x := field.part)

section Wrap

variable {α : Type} {wrap : α → Part} {p : Part → Prop}

theorem forall_mem_map_toList {x : Option α} (h : ∀ a ∈ x, p (wrap a)) :
    ∀ y ∈ x.toList.map wrap, p y := by
  simpa using h

theorem forall_mem_flatMap_toList {x : Option (List α)} (h : ∀ xs ∈ x, ∀ a ∈ xs, p (wrap a)) :
    ∀ y ∈ x.toList.flatMap (List.map wrap), p y := by
  intro y member
  obtain ⟨xs, there, member⟩ := List.mem_flatMap.1 member
  obtain ⟨a, isItem, rfl⟩ := List.mem_map.1 member
  exact h xs (Option.mem_toList.1 there) a isItem

end Wrap

theorem Node.allRefs_plain (value : Json) : (Node.plain value).AllRefs P :=
  Node.allRefs_iff.2 ⟨by rintro r ⟨⟩, by rintro y ⟨⟩⟩

theorem Node.allRefs_ref {r : RefNode} : (Node.ref r).AllRefs P ↔ P r := by
  rw [Node.allRefs_iff]
  simp [Node.part, Part.reference?, Part.below, Schema.drop]

theorem Node.allRefs_array {items : Option Field} (h : ∀ field ∈ items, field.AllRefs P)
    (extra : Members) : (Node.array items extra).AllRefs P :=
  Node.allRefs_iff.2 ⟨by rintro r ⟨⟩, forall_mem_map_toList h⟩

theorem Node.allRefs_composed {parent child : Option Node} {interfaces : List RefNode}
    {inline : List Node} (hp : ∀ node ∈ parent, node.AllRefs P)
    (hc : ∀ node ∈ child, node.AllRefs P) (hi : ∀ r ∈ interfaces, P r)
    (hm : ∀ node ∈ inline, node.AllRefs P) (extra : Members) :
    (Node.composed parent child interfaces inline extra).AllRefs P := by
  have interface (r : RefNode) (member : r ∈ interfaces) : (Part.reference r).AllRefs P :=
    Part.allRefs_reference.2 (hi r member)
  refine Node.allRefs_iff.2 ⟨by rintro r ⟨⟩, ?_⟩
  refine List.forall_mem_append.2 ⟨forall_mem_map_toList hp, ?_⟩
  refine List.forall_mem_append.2 ⟨forall_mem_map_toList hc, ?_⟩
  exact List.forall_mem_append.2 ⟨List.forall_mem_map.2 interface, List.forall_mem_map.2 hm⟩

theorem Node.allRefs_object {properties : Option (List (String × Field))}
    {additional : Option Field} {oneOf anyOf : Option (List Field)} {negated : Option Field}
    (hp : ∀ fields ∈ properties, ∀ field ∈ fields, field.2.AllRefs P)
    (ha : ∀ field ∈ additional, field.AllRefs P)
    (ho : ∀ fields ∈ oneOf, ∀ field ∈ fields, field.AllRefs P)
    (hy : ∀ fields ∈ anyOf, ∀ field ∈ fields, field.AllRefs P)
    (hn : ∀ field ∈ negated, field.AllRefs P) (extra : Members) :
    (Node.object properties additional oneOf anyOf negated extra).AllRefs P := by
  refine Node.allRefs_iff.2 ⟨by rintro r ⟨⟩, ?_⟩
  refine List.forall_mem_append.2 ⟨forall_mem_flatMap_toList hp, ?_⟩
  refine List.forall_mem_append.2 ⟨forall_mem_map_toList ha, ?_⟩
  refine List.forall_mem_append.2 ⟨forall_mem_flatMap_toList ho, ?_⟩
  exact List.forall_mem_append.2 ⟨forall_mem_flatMap_toList hy, forall_mem_map_toList hn⟩

theorem Field.allRefs_plain (value : Json) : (Field.plain value).AllRefs P :=
  Field.allRefs_iff.2 ⟨by rintro r ⟨⟩, by rintro y ⟨⟩⟩

theorem Field.allRefs_primitive (extra : Members) : (Field.primitive extra).AllRefs P :=
  Field.allRefs_iff.2 ⟨by rintro r ⟨⟩, by rintro y ⟨⟩⟩

theorem Field.allRefs_ref {r : RefNode} (h : P r) : (Field.ref r).AllRefs P :=
  Field.allRefs_iff.2 ⟨by rintro r' ⟨⟩; exact h, by rintro y ⟨⟩⟩

theorem Field.allRefs_array {items : Option Field} (h : ∀ field ∈ items, field.AllRefs P)
    (extra : Members) : (Field.array items extra).AllRefs P :=
  Field.allRefs_iff.2 ⟨by rintro r ⟨⟩, forall_mem_map_toList h⟩

theorem Field.allRefs_map {additional : Field} (h : additional.AllRefs P) (extra : Members) :
    (Field.map additional extra).AllRefs P :=
  Field.allRefs_iff.2 ⟨by rintro r ⟨⟩, List.forall_mem_singleton.2 h⟩

theorem Field.allRefs_schema {node : Node} (h : node.AllRefs P) : (Field.schema node).AllRefs P :=
  Field.allRefs_iff.2 ⟨by rintro r ⟨⟩, List.forall_mem_singleton.2 h⟩

end AllRefs

/-! ## Reading -/

/-- What is read of the interpreted keys has every reference as `P` says. -/
structure Parts.AllRefs (P : RefNode → Prop) (parts : Parts) : Prop where
  allOf : ∀ nodes ∈ parts.allOf, ∀ node ∈ nodes, node.AllRefs P
  items : ∀ field ∈ parts.items, field.AllRefs P
  properties : ∀ fields ∈ parts.properties, ∀ field ∈ fields, field.2.AllRefs P
  additional : ∀ field ∈ parts.additional, field.AllRefs P
  oneOf : ∀ fields ∈ parts.oneOf, ∀ field ∈ fields, field.AllRefs P
  anyOf : ∀ fields ∈ parts.anyOf, ∀ field ∈ fields, field.AllRefs P
  negated : ∀ field ∈ parts.negated, field.AllRefs P

theorem Parts.AllRefs.withItems {P : RefNode → Prop} {parts : Parts} (h : parts.AllRefs P)
    {field : Field} (hf : field.AllRefs P) :
    Parts.AllRefs P { parts with items := some field } :=
  { h with items := by rintro _ ⟨⟩; exact hf }

theorem Node.allRefs_ofMembers {P : RefNode → Prop} {nodes : List Node}
    (h : ∀ node ∈ nodes, node.AllRefs P) (extra : Members) :
    (Node.ofMembers nodes extra).AllRefs P := by
  cases nodes with
  | nil => exact Node.allRefs_composed (by simp) (by simp) (by simp) (by simp) extra
  | cons parent rest =>
    have later : ∀ node ∈ rest, node.AllRefs P := fun node hn => h node (by simp [hn])
    have middle : ∀ node ∈ rest.dropLast, node.AllRefs P :=
      fun node hn => later node ((List.dropLast_sublist _).subset hn)
    refine Node.allRefs_composed ?_ ?_ ?_ ?_ extra
    · rintro node ⟨⟩
      exact h parent (by simp)
    · exact fun node last => later node (List.mem_of_getLast? last)
    · intro r member
      obtain ⟨node, member, isRef⟩ := List.mem_filterMap.1 member
      split at isRef
      · cases isRef
        exact Node.allRefs_ref.1 (middle _ member)
      · cases isRef
    · exact fun node member => middle node (List.mem_filter.1 member).1

section Parts

variable {layout : Layout} {parts : Parts}

theorem Node.allRefs_ofParts (h : parts.AllRefs RefNode.IsNormal) (members : Members) :
    (Node.ofParts layout members parts).AllRefs RefNode.IsNormal := by
  unfold Node.ofParts
  split
  · exact Node.allRefs_ref.2 (RefNode.isNormal_ofText _ _ _)
  · rename_i nodes _ found
    exact Node.allRefs_ofMembers (h.allOf nodes found) _
  · split
    · exact Node.allRefs_array h.items _
    · exact Node.allRefs_object h.properties h.additional h.oneOf h.anyOf h.negated _

theorem Field.allRefs_ofParts (h : parts.AllRefs RefNode.IsNormal) (members : Members) :
    (Field.ofParts layout members parts).AllRefs RefNode.IsNormal := by
  unfold Field.ofParts
  split
  · exact Field.allRefs_ref (RefNode.isNormal_ofText _ _ _)
  · split
    · exact Field.allRefs_schema (Node.allRefs_ofParts h members)
    · split
      · exact Field.allRefs_array h.items _
      · split
        · rename_i additional found
          exact Field.allRefs_map (h.additional additional found) _
        · exact Field.allRefs_primitive _

end Parts

mutual

theorem Node.allRefs_ofJson (layout : Layout) : ∀ value : Json,
    (Node.ofJson layout value).AllRefs RefNode.IsNormal
  | .obj members => by
    rw [Node.ofJson]
    exact Node.allRefs_ofParts (Parts.allRefs_ofMembers layout members) members
  | .null | .bool _ | .int _ | .float _ | .str _ | .arr _ => Node.allRefs_plain _

theorem Node.allRefs_listOfJson (layout : Layout) : ∀ values : List Json,
    ∀ node ∈ Node.listOfJson layout values, node.AllRefs RefNode.IsNormal
  | [] => by simp [Node.listOfJson]
  | value :: rest => by
    intro node member
    rw [Node.listOfJson, List.mem_cons] at member
    rcases member with rfl | member
    · exact Node.allRefs_ofJson layout value
    · exact Node.allRefs_listOfJson layout rest node member

theorem Field.allRefs_ofJson (layout : Layout) : ∀ value : Json,
    (Field.ofJson layout value).AllRefs RefNode.IsNormal
  | .obj members => by
    rw [Field.ofJson]
    exact Field.allRefs_ofParts (Parts.allRefs_ofMembers layout members) members
  | .null | .bool _ | .int _ | .float _ | .str _ | .arr _ => Field.allRefs_plain _

theorem Field.allRefs_listOfJson (layout : Layout) : ∀ values : List Json,
    ∀ field ∈ Field.listOfJson layout values, field.AllRefs RefNode.IsNormal
  | [] => by simp [Field.listOfJson]
  | value :: rest => by
    intro field member
    rw [Field.listOfJson, List.mem_cons] at member
    rcases member with rfl | member
    · exact Field.allRefs_ofJson layout value
    · exact Field.allRefs_listOfJson layout rest field member

theorem Field.allRefs_entriesOfJson (layout : Layout) : ∀ members : List (String × Json),
    ∀ field ∈ Field.entriesOfJson layout members, field.2.AllRefs RefNode.IsNormal
  | [] => by simp [Field.entriesOfJson]
  | (name, value) :: rest => by
    intro field member
    rw [Field.entriesOfJson, List.mem_cons] at member
    rcases member with rfl | member
    · exact Field.allRefs_ofJson layout value
    · exact Field.allRefs_entriesOfJson layout rest field member

theorem Parts.allRefs_ofMembers (layout : Layout) : ∀ members : List (String × Json),
    (Parts.ofMembers layout members).AllRefs RefNode.IsNormal
  | [] => by
    rw [Parts.ofMembers]
    constructor <;> rintro _ ⟨⟩
  | (key, value) :: rest => by
    rw [Parts.ofMembers]
    exact Parts.allRefs_withMember layout key value (Parts.allRefs_ofMembers layout rest)

theorem Parts.allRefs_withMember (layout : Layout) (key : String) :
    ∀ (value : Json) {parts : Parts}, parts.AllRefs RefNode.IsNormal →
      (Parts.withMember layout key parts value).AllRefs RefNode.IsNormal
  | .str text, parts, h => by
    rw [Parts.withMember]
    split
    · exact { h with }
    · split
      · exact h.withItems (Field.allRefs_plain _)
      · exact h
  | .arr values, parts, h => by
    rw [Parts.withMember]
    split
    · exact { h with allOf := by rintro _ ⟨⟩; exact Node.allRefs_listOfJson layout values }
    · split
      · exact { h with oneOf := by rintro _ ⟨⟩; exact Field.allRefs_listOfJson layout values }
      · split
        · exact { h with anyOf := by rintro _ ⟨⟩; exact Field.allRefs_listOfJson layout values }
        · split
          · exact h.withItems (Field.allRefs_plain _)
          · exact h
  | .obj members, parts, h => by
    have field : (Field.ofParts layout members (Parts.ofMembers layout members)).AllRefs
        RefNode.IsNormal :=
      Field.allRefs_ofParts (Parts.allRefs_ofMembers layout members) members
    rw [Parts.withMember]
    split
    · exact h.withItems field
    · split
      · exact { h with
          properties := by rintro _ ⟨⟩; exact Field.allRefs_entriesOfJson layout members }
      · split
        · exact { h with additional := by rintro _ ⟨⟩; exact field }
        · split
          · exact { h with negated := by rintro _ ⟨⟩; exact field }
          · exact h
  | .null, parts, h | .bool _, parts, h | .int _, parts, h | .float _, parts, h => by
    rw [Parts.withMember]
    · split
      · exact h.withItems (Field.allRefs_plain _)
      · exact h
    all_goals simp

end

/-- Every internal reference of the registry starts with a hash. -/
def Document.IsNormal (document : Document) : Prop :=
  ∀ entry ∈ document.definitions, entry.2.AllRefs RefNode.IsNormal

/-- Documents that are read are normal. -/
theorem Document.isNormal_of_ofJson {value : Json} {document : Document}
    (h : Document.ofJson value = .ok document) : document.IsNormal := by
  unfold ofJson at h
  split at h
  · cases h
    intro entry member
    unfold definitionsOf at member
    split at member
    · obtain ⟨⟨name, schema⟩, -, rfl⟩ := List.mem_map.1 member
      exact Node.allRefs_ofJson _ schema
    · cases member
  · cases h

end SchemaBundle
