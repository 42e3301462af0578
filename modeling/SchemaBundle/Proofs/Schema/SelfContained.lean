import SchemaBundle.Proofs.Schema.Normal
import SchemaBundle.Schema.Equality
import SchemaBundle.Schema.Verbatim

/-!
# Schemas without references

A schema in which every reference stays what it is stays the same as a whole
(`Node.RelWithin.eq_self`). This is so of a schema that is equal to a self-contained one, since a
schema that is equal to one with a reference shows a key `$ref` when it is written
(`Node.allRefs_of_eqv`).
-/

namespace SchemaBundle

/-! ## Keys in values -/

namespace Json

theorem hasRefKeyInItems_of_mem {items : List Json} {value : Json} (member : value ∈ items)
    (h : value.hasRefKey = true) : hasRefKeyInItems items = true := by
  induction items with
  | nil => cases member
  | cons first rest ih =>
    rw [hasRefKeyInItems, Bool.or_eq_true]
    rcases List.mem_cons.1 member with rfl | member
    · exact .inl h
    · exact .inr (ih member)

theorem hasRefKeyInMembers_of_mem {members : Members} {entry : String × Json}
    (member : entry ∈ members) (h : entry.2.hasRefKey = true) :
    hasRefKeyInMembers members = true := by
  induction members with
  | nil => cases member
  | cons first rest ih =>
    obtain ⟨key, value⟩ := first
    rw [hasRefKeyInMembers, Bool.or_eq_true]
    rcases List.mem_cons.1 member with rfl | member
    · exact .inl h
    · exact .inr (ih member)

theorem hasRefKey_arr {items : List Json} {value : Json} (member : value ∈ items)
    (h : value.hasRefKey = true) : (arr items).hasRefKey = true :=
  hasRefKeyInItems_of_mem member h

/-- A key in the value of a member is a key in the object. -/
theorem hasRefKey_obj {members : Members} (key : String) (value : Json)
    (member : (key, value) ∈ members) (h : value.hasRefKey = true) :
    (obj members).hasRefKey = true := by
  rw [hasRefKey, hasRefKeyInMembers_of_mem member h, Bool.or_true]

end Json

theorem RefNode.hasRefKey_toJson (r : RefNode) : r.toJson.hasRefKey = true := by
  simp [toJson, Json.hasRefKey, Entries.contains, Entries.find?]

theorem Node.mem_listToJson {nodes : List Node} {node : Node} (member : node ∈ nodes) :
    node.toJson ∈ Node.listToJson nodes := by
  induction nodes with
  | nil => cases member
  | cons first rest ih =>
    rw [Node.listToJson, List.mem_cons]
    exact (List.mem_cons.1 member).imp (congrArg Node.toJson) ih

theorem Field.mem_listToJson {fields : List Field} {field : Field} (member : field ∈ fields) :
    field.toJson ∈ Field.listToJson fields := by
  induction fields with
  | nil => cases member
  | cons first rest ih =>
    rw [Field.listToJson, List.mem_cons]
    exact (List.mem_cons.1 member).imp (congrArg Field.toJson) ih

theorem Field.mem_entriesToJson {fields : List (String × Field)} {name : String} {field : Field}
    (member : (name, field) ∈ fields) : (name, field.toJson) ∈ Field.entriesToJson fields := by
  induction fields with
  | nil => cases member
  | cons first rest ih =>
    obtain ⟨other, value⟩ := first
    rw [Field.entriesToJson, List.mem_cons]
    rcases List.mem_cons.1 member with same | member
    · cases same
      exact .inl rfl
    · exact .inr (ih member)

/-! ## Equal schemas -/

theorem RefNode.eqvList_iff (as bs : List RefNode) :
    RefNode.eqvList as bs = true ↔ List.Forall₂ (RefNode.eqv · · = true) as bs := by
  induction as generalizing bs with
  | nil => cases bs <;> simp [RefNode.eqvList]
  | cons a rest ih => cases bs <;> simp [RefNode.eqvList, ih]

theorem Node.eqvList_iff (as bs : List Node) :
    Node.eqvList as bs = true ↔ List.Forall₂ (Node.eqv · · = true) as bs := by
  induction as generalizing bs with
  | nil => cases bs <;> simp [Node.eqvList]
  | cons a rest ih => cases bs <;> simp [Node.eqvList, ih]

theorem Field.eqvList_iff (as bs : List Field) :
    Field.eqvList as bs = true ↔ List.Forall₂ (Field.eqv · · = true) as bs := by
  induction as generalizing bs with
  | nil => cases bs <;> simp [Field.eqvList]
  | cons a rest ih => cases bs <;> simp [Field.eqvList, ih]

theorem Node.eqvOption_iff (x y : Option Node) :
    Node.eqvOption x y = true ↔ Option.Rel (Node.eqv · · = true) x y := by
  cases x <;> cases y <;> simp [Node.eqvOption]

theorem Field.eqvOption_iff (x y : Option Field) :
    Field.eqvOption x y = true ↔ Option.Rel (Field.eqv · · = true) x y := by
  cases x <;> cases y <;> simp [Field.eqvOption]

theorem Field.eqvOptionList_iff (x y : Option (List Field)) :
    Field.eqvOptionList x y = true ↔ Option.Rel (Field.eqvList · · = true) x y := by
  cases x <;> cases y <;> simp [Field.eqvOptionList]

theorem Field.eqvEntries_iff (xs ys : Entries Field) : Field.eqvEntries xs ys = true ↔
    ∀ x ∈ xs, ∃ y, Entries.find? x.1 ys = some y ∧ x.2.eqv y = true := by
  induction xs with
  | nil => simp [Field.eqvEntries]
  | cons x rest ih =>
    obtain ⟨name, x⟩ := x
    rw [Field.eqvEntries, Bool.and_eq_true, ih, List.forall_mem_cons]
    cases Entries.find? name ys <;> simp

theorem Field.eqvNamed_iff (x y : Option (Entries Field)) : Field.eqvNamed x y = true ↔
    Option.Rel (fun xs ys => (xs.length == ys.length && Field.eqvEntries xs ys) = true) x y := by
  cases x <;> cases y <;> simp [Field.eqvNamed]

/-- Two parts of one kind that are equal. -/
def Part.Same : Part → Part → Prop
  | .schema (.node a), .schema (.node b) => a.eqv b = true
  | .schema (.field a), .schema (.field b) => a.eqv b = true
  | .reference r, .reference r' => r.eqv r' = true
  | _, _ => False

section Below

variable {y : Part}

/-- What stands below a definition has an equal below each definition that is equal to it. -/
theorem Node.exists_same_below {a b : Node} (same : a.eqv b = true) {x : Part}
    (member : x ∈ a.part.below) : ∃ y ∈ b.part.below, x.Same y := by
  cases a with
  | ref | plain => cases member
  | array items extra =>
    cases b <;> simp only [Node.eqv, Bool.false_eq_true, Bool.and_eq_true,
      Field.eqvOption_iff] at same
    obtain ⟨field, rfl, rfl⟩ := exists_of_mem_map_toList member
    obtain ⟨other, rfl, equal⟩ := optionRel_left same.1 rfl
    exact ⟨other.part, List.mem_singleton_self _, equal⟩
  | composed parent child interfaces inline extra =>
    cases b <;> simp only [Node.eqv, Bool.false_eq_true, Bool.and_eq_true, Node.eqvOption_iff,
      Node.eqvList_iff, RefNode.eqvList_iff] at same
    obtain ⟨⟨⟨⟨hp, hc⟩, hi⟩, hm⟩, -⟩ := same
    simp only [Node.below_composed, List.mem_append] at member ⊢
    rcases member with member | member | member | member
    · obtain ⟨node, rfl, rfl⟩ := exists_of_mem_map_toList member
      obtain ⟨other, rfl, equal⟩ := optionRel_left hp rfl
      exact ⟨other.part, .inl (List.mem_singleton_self _), equal⟩
    · obtain ⟨node, rfl, rfl⟩ := exists_of_mem_map_toList member
      obtain ⟨other, rfl, equal⟩ := optionRel_left hc rfl
      exact ⟨other.part, .inr (.inl (List.mem_singleton_self _)), equal⟩
    · obtain ⟨r, isItem, rfl⟩ := List.mem_map.1 member
      obtain ⟨other, there, equal⟩ := forall₂_left hi isItem
      exact ⟨.reference other, .inr (.inr (.inl (List.mem_map_of_mem there))), equal⟩
    · obtain ⟨node, isItem, rfl⟩ := List.mem_map.1 member
      obtain ⟨other, there, equal⟩ := forall₂_left hm isItem
      exact ⟨other.part, .inr (.inr (.inr (List.mem_map_of_mem there))), equal⟩
  | object properties additional oneOf anyOf negated extra =>
    cases b <;> simp only [Node.eqv, Bool.false_eq_true, Bool.and_eq_true, Field.eqvOption_iff,
      Field.eqvOptionList_iff, Field.eqvList_iff, Field.eqvNamed_iff, Field.eqvEntries_iff] at same
    obtain ⟨⟨⟨⟨⟨hp, ha⟩, ho⟩, hy⟩, hn⟩, -⟩ := same
    simp only [Node.below_object, List.mem_append] at member ⊢
    rcases member with member | member | member | member | member
    · obtain ⟨fields, rfl, field, isItem, rfl⟩ := exists_of_mem_flatMap_toList member
      obtain ⟨others, rfl, equal⟩ := optionRel_left hp rfl
      obtain ⟨other, found, equal⟩ := equal.2 field isItem
      exact ⟨other.part, .inl (mem_flatMap_some (Entries.mem_of_find? found)), equal⟩
    · obtain ⟨field, rfl, rfl⟩ := exists_of_mem_map_toList member
      obtain ⟨other, rfl, equal⟩ := optionRel_left ha rfl
      exact ⟨other.part, .inr (.inl (List.mem_singleton_self _)), equal⟩
    · obtain ⟨fields, rfl, field, isItem, rfl⟩ := exists_of_mem_flatMap_toList member
      obtain ⟨others, rfl, equal⟩ := optionRel_left ho rfl
      obtain ⟨other, there, equal⟩ := forall₂_left equal isItem
      exact ⟨other.part, .inr (.inr (.inl (mem_flatMap_some there))), equal⟩
    · obtain ⟨fields, rfl, field, isItem, rfl⟩ := exists_of_mem_flatMap_toList member
      obtain ⟨others, rfl, equal⟩ := optionRel_left hy rfl
      obtain ⟨other, there, equal⟩ := forall₂_left equal isItem
      exact ⟨other.part, .inr (.inr (.inr (.inl (mem_flatMap_some there)))), equal⟩
    · obtain ⟨field, rfl, rfl⟩ := exists_of_mem_map_toList member
      obtain ⟨other, rfl, equal⟩ := optionRel_left hn rfl
      exact ⟨other.part, .inr (.inr (.inr (.inr (List.mem_singleton_self _)))), equal⟩

theorem Field.exists_same_below {a b : Field} (same : a.eqv b = true) {x : Part}
    (member : x ∈ a.part.below) : ∃ y ∈ b.part.below, x.Same y := by
  cases a with
  | ref | primitive | plain => cases member
  | array items extra =>
    cases b <;> simp only [Field.eqv, Bool.false_eq_true, Bool.and_eq_true,
      Field.eqvOption_iff] at same
    obtain ⟨field, rfl, rfl⟩ := exists_of_mem_map_toList member
    obtain ⟨other, rfl, equal⟩ := optionRel_left same.1 rfl
    exact ⟨other.part, List.mem_singleton_self _, equal⟩
  | map additional extra =>
    obtain rfl := List.mem_singleton.1 member
    cases b <;> simp only [Field.eqv, Bool.false_eq_true, Bool.and_eq_true] at same
    exact ⟨_, List.mem_singleton_self _, same.1⟩
  | schema inner =>
    obtain rfl := List.mem_singleton.1 member
    cases b <;> simp only [Field.eqv, Bool.false_eq_true] at same
    exact ⟨_, List.mem_singleton_self _, same⟩

/-- A key in what is written of a part below a definition is a key in the definition. -/
theorem Node.hasRefKey_of_mem_below {a : Node} (member : y ∈ a.part.below)
    (shows : y.toJson.hasRefKey = true) : a.toJson.hasRefKey = true := by
  cases a with
  | ref | plain => cases member
  | array items extra =>
    obtain ⟨field, rfl, rfl⟩ := exists_of_mem_map_toList member
    exact Json.hasRefKey_obj "items" field.toJson (by simp [Field.optionToJson, optionalMember])
      shows
  | composed parent child interfaces inline extra =>
    rw [Node.toJson]
    -- each of the four groups of members is a part of the list under `allOf`
    refine Json.hasRefKey_obj _ _ (List.mem_append_right _ (List.mem_singleton_self _)) ?_
    refine Json.hasRefKey_arr ?_ shows
    simp only [Node.below_composed, List.mem_append] at member ⊢
    rcases member with member | member | member | member
    · obtain ⟨node, rfl, rfl⟩ := exists_of_mem_map_toList member
      exact .inl (.inl (.inl (List.mem_singleton_self _)))
    · obtain ⟨node, rfl, rfl⟩ := exists_of_mem_map_toList member
      exact .inr (List.mem_singleton_self _)
    · obtain ⟨r, isItem, rfl⟩ := List.mem_map.1 member
      exact .inl (.inl (.inr (List.mem_map_of_mem isItem)))
    · obtain ⟨node, isItem, rfl⟩ := List.mem_map.1 member
      exact .inl (.inr (Node.mem_listToJson isItem))
  | object properties additional oneOf anyOf negated extra =>
    simp only [Node.below_object, List.mem_append] at member
    rcases member with member | member | member | member | member
    · obtain ⟨fields, rfl, field, isItem, rfl⟩ := exists_of_mem_flatMap_toList member
      exact Json.hasRefKey_obj "properties" (.obj (Field.entriesToJson fields))
        (by simp [Field.namedToJson, optionalMember])
        (Json.hasRefKey_obj field.1 field.2.toJson (Field.mem_entriesToJson isItem) shows)
    · obtain ⟨field, rfl, rfl⟩ := exists_of_mem_map_toList member
      exact Json.hasRefKey_obj "additionalProperties" field.toJson
        (by simp [Field.optionToJson, optionalMember]) shows
    · obtain ⟨fields, rfl, field, isItem, rfl⟩ := exists_of_mem_flatMap_toList member
      exact Json.hasRefKey_obj "oneOf" (.arr (Field.listToJson fields))
        (by simp [Field.optionListToJson, optionalMember])
        (Json.hasRefKey_arr (Field.mem_listToJson isItem) shows)
    · obtain ⟨fields, rfl, field, isItem, rfl⟩ := exists_of_mem_flatMap_toList member
      exact Json.hasRefKey_obj "anyOf" (.arr (Field.listToJson fields))
        (by simp [Field.optionListToJson, optionalMember])
        (Json.hasRefKey_arr (Field.mem_listToJson isItem) shows)
    · obtain ⟨field, rfl, rfl⟩ := exists_of_mem_map_toList member
      exact Json.hasRefKey_obj "not" field.toJson
        (by simp [Field.optionToJson, optionalMember]) shows

theorem Field.hasRefKey_of_mem_below {a : Field} (member : y ∈ a.part.below)
    (shows : y.toJson.hasRefKey = true) : a.toJson.hasRefKey = true := by
  cases a with
  | ref | primitive | plain => cases member
  | array items extra =>
    obtain ⟨field, rfl, rfl⟩ := exists_of_mem_map_toList member
    exact Json.hasRefKey_obj "items" field.toJson (by simp [Field.optionToJson, optionalMember])
      shows
  | map additional extra =>
    obtain rfl := List.mem_singleton.1 member
    exact Json.hasRefKey_obj "additionalProperties" additional.toJson (by simp) shows
  | schema inner =>
    obtain rfl := List.mem_singleton.1 member
    exact shows

namespace Part

theorem Same.exists_below {x x' : Part} (same : x.Same x') (member : y ∈ x.below) :
    ∃ y' ∈ x'.below, y.Same y' := by
  match x, x', same with
  | .schema (.node _), .schema (.node _), same => exact Node.exists_same_below same member
  | .schema (.field _), .schema (.field _), same => exact Field.exists_same_below same member
  | .reference _, .reference _, _ => cases member

theorem hasRefKey_of_mem_below {x : Part} (member : y ∈ x.below)
    (shows : y.toJson.hasRefKey = true) : x.toJson.hasRefKey = true := by
  match x, member with
  | .schema (.node _), member => exact Node.hasRefKey_of_mem_below member shows
  | .schema (.field _), member => exact Field.hasRefKey_of_mem_below member shows

/-- What is equal to a reference is one, and shows its key. -/
theorem Same.hasRefKey_of_reference {x x' : Part} (same : x.Same x') {r : RefNode}
    (isReference : x.reference? = some r) : x'.toJson.hasRefKey = true := by
  match x, x', same with
  | .schema (.node a), .schema (.node b), same =>
    cases a <;> cases isReference
    cases b <;> simp only [Same, Node.eqv, Bool.false_eq_true] at same
    exact RefNode.hasRefKey_toJson _
  | .schema (.field a), .schema (.field b), same =>
    cases a <;> cases isReference
    cases b <;> simp only [Same, Field.eqv, Bool.false_eq_true] at same
    exact RefNode.hasRefKey_toJson _
  | .reference _, .reference r', _ => exact r'.hasRefKey_toJson

/-- A part that is equal to one with a reference shows a key when it is written. -/
theorem Same.hasRefKey {x x' : Part} (same : x.Same x') (place : List PlaceStep) {r : RefNode}
    (found : x.refAt? place = some r) : x'.toJson.hasRefKey = true := by
  induction place generalizing x x' with
  | nil =>
    rw [refAt?_nil] at found
    exact same.hasRefKey_of_reference found
  | cons step rest ih =>
    rw [refAt?_cons] at found
    obtain ⟨y, there, found⟩ := Option.bind_eq_some_iff.1 found
    obtain ⟨y', member, same⟩ := same.exists_below (mem_below_iff.2 ⟨step, there⟩)
    exact hasRefKey_of_mem_below member (ih same found)

end Part

end Below

/-- A definition that is equal to a self-contained one has no interpreted reference. -/
theorem Node.allRefs_of_eqv {a b : Node} (same : a.eqv b = true) (h : b.isSelfContained = true) :
    a.AllRefs fun _ => False := by
  intro place r found
  have same : a.part.Same b.part := same
  have key : b.toJson.hasRefKey = true := same.hasRefKey place found
  simp [isSelfContained, key] at h

/-! ## References that stay -/

section Fixed

theorem eq_of_optionRel {α : Type} {P : α → α → Prop} {x y : Option α}
    (fixed : ∀ a ∈ x, ∀ b, P a b → b = a) (h : Option.Rel P x y) : y = x := by
  cases h with
  | none => rfl
  | some h => rw [fixed _ rfl _ h]

theorem eq_of_forall₂ {α : Type} {P : α → α → Prop} {xs ys : List α}
    (fixed : ∀ a ∈ xs, ∀ b, P a b → b = a) (h : List.Forall₂ P xs ys) : ys = xs := by
  induction h with
  | nil => rfl
  | cons hab _ ih =>
    rw [fixed _ (List.mem_cons_self ..) _ hab,
      ih fun a member => fixed a (List.mem_cons_of_mem _ member)]

variable {R : RefNode → RefNode → Prop} {cut : Prop}

/-- A reference that stays what it is. -/
def RefNode.Fixed (R : RefNode → RefNode → Prop) (r : RefNode) : Prop :=
  ∀ r', R r r' → r' = r

theorem Part.RelWithin.eq_self {room : Nat} {x y : Part} (h : x.RelWithin R cut room y)
    (fixed : x.AllRefs (RefNode.Fixed R)) : y = x := by
  induction room generalizing x y with
  | zero =>
    obtain ⟨a, rfl, rfl, -⟩ | ⟨r, r', rfl, rfl, changed⟩ := h.of_zero
    · rfl
    · rw [Part.allRefs_reference.1 fixed r' changed]
  | succ room ih =>
    obtain ⟨hollow, reference, below, -⟩ := h.relBelow
    obtain ⟨here, inside⟩ := Part.allRefs_iff.1 fixed
    exact Part.eq_of_below hollow (eq_of_optionRel here reference)
      (eq_of_forall₂ (fun z member _ h => ih h (inside z member)) below)

/-- If every reference stays what it is, so does the schema. -/
theorem Node.RelWithin.eq_self {room : Nat} {a b : Node} (h : Node.RelWithin R cut room a b)
    (fixed : a.AllRefs (RefNode.Fixed R)) : b = a :=
  Node.part_injective (Part.RelWithin.eq_self (x := a.part) (y := b.part) h fixed)

end Fixed

end SchemaBundle
