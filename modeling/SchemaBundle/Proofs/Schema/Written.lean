import SchemaBundle.Proofs.Reference.Names
import SchemaBundle.Proofs.Schema.Form

/-!
# What is written of a schema

A member that is interpreted is `Kept`, whichever reader it has: what is read of it is written so
that the same is read again, in the form of the member. The members that are written of an array, a
dictionary or an object are the ones that were read, in their form (`Written`), and the same parts
are found in them. This is one step of an induction: of the values inside it is assumed that they
survive (`RoundTrips`).
-/

namespace SchemaBundle

open Json

/-! ## Compositions -/

/-- The reference that a definition is. -/
def Node.ref? : Node → Option RefNode
  | .ref node => some node
  | _ => none

/-- Whether a definition is a reference. -/
def Node.isRef (node : Node) : Bool :=
  node.ref?.isSome

namespace Node

theorem listToJson_eq_map (nodes : List Node) : listToJson nodes = nodes.map toJson := by
  induction nodes with
  | nil => rfl
  | cons node rest ih => rw [listToJson, ih, List.map_cons]

theorem listOfJson_eq_map (layout : Layout) (values : List Json) :
    listOfJson layout values = values.map (ofJson layout) := by
  induction values with
  | nil => rfl
  | cons value rest ih => rw [listOfJson, ih, List.map_cons]

theorem filterMap_ref? (nodes : List Node) :
    (nodes.filter isRef).filterMap ref? = nodes.filterMap ref? := by
  rw [List.filterMap_filter]
  congr 1
  funext node
  cases node <;> rfl

theorem filterMap_not_isRef (nodes : List Node) :
    (nodes.filter (!isRef ·)).filterMap ref? = [] := by
  rw [List.filterMap_eq_nil_iff]
  intro node member
  simpa [isRef] using (List.mem_filter.1 member).2

theorem map_toJson_ref? (nodes : List Node) :
    (nodes.filterMap ref?).map RefNode.toJson = (nodes.filter isRef).map toJson := by
  rw [← filterMap_ref?]
  induction nodes with
  | nil => rfl
  | cons node rest ih =>
    cases node with
    | ref r => exact congrArg (r.toJson :: ·) ih
    | _ => exact ih

theorem ofMembers_append (first last : Node) (middle : List Node) (extra : Members) :
    ofMembers (first :: (middle ++ [last])) extra
      = .composed (some first) (some last) (middle.filterMap ref?) (middle.filter (!isRef ·))
        extra := by
  rw [ofMembers, List.dropLast_concat, List.getLast?_concat]
  congr 2
  funext node
  cases node <;> rfl

/-- What is written of a composition. -/
theorem toJson_ofMembers (nodes : List Node) (extra : Members) :
    (ofMembers nodes extra).toJson
      = .obj (extra ++ [("allOf", .arr ((middleSorted isRef nodes).map toJson))]) := by
  rcases eq_of_middle nodes with rfl | ⟨node, rfl⟩ | ⟨first, middle, last, rfl⟩
  · rfl
  · rfl
  · rw [ofMembers_append, middleSorted_cons_append, toJson, map_toJson_ref?, listToJson_eq_map]
    simp [optionToJson]

/-- The order in which a composition is written is the order in which it is read. -/
theorem ofMembers_middleSorted (nodes : List Node) (extra : Members) :
    ofMembers (middleSorted isRef nodes) extra = ofMembers nodes extra := by
  rcases eq_of_middle nodes with rfl | ⟨node, rfl⟩ | ⟨first, middle, last, rfl⟩
  · rfl
  · rfl
  · rw [middleSorted_cons_append, List.cons_append, ofMembers_append, ofMembers_append,
      List.filterMap_append, filterMap_ref?, filterMap_not_isRef, List.append_nil]
    simp [List.filter_filter]

end Node

/-! ## Members that are kept -/

/-- A member with a reader is kept: what is read of it is written so that the same is read again,
and so that nothing but the order of members differs. One that is not read is left alone. -/
structure Kept {α : Type} (read : Json → Option α) (write : α → Json) (form : Json → Json)
    (value : Json) : Prop where
  again : ∀ a, read value = some a → read (write a) = some a
  same : ∀ a, read value = some a → SameData (write a) (form value)
  alone : read value = none → form value = value

section Kept

variable {α : Type} {read : Json → Option α} {write : α → Json} {form : Json → Json}
  {found : Option Json}

/-- A member without the shape that its reader expects. -/
theorem kept_of_none {value : Json} (unread : read value = none) (alone : form value = value) :
    Kept read write form value where
  again a h := by rw [unread] at h; cases h
  same a h := by rw [unread] at h; cases h
  alone _ := alone

/-- A member of which something is read. -/
theorem kept_of_some {value : Json} {a : α} (found : read value = some a)
    (again : read (write a) = some a) (same : SameData (write a) (form value)) :
    Kept read write form value where
  again a' h := by rwa [← Option.some.inj (found.symm.trans h)]
  same a' h := by rwa [← Option.some.inj (found.symm.trans h)]
  alone h := by rw [found] at h; cases h

theorem bind_or_of_kept (kept : ∀ value ∈ found, Kept read write form value) :
    (((found.bind read).map write).or found).bind read = found.bind read := by
  cases found with
  | none => rfl
  | some value =>
    cases present : read value with
    | none => simp [present]
    | some a => simp [present, (kept value rfl).again a present]

theorem rel_or_of_kept (kept : ∀ value ∈ found, Kept read write form value) :
    Option.Rel SameData (((found.bind read).map write).or found) (found.map form) := by
  cases found with
  | none => exact .none
  | some value =>
    cases present : read value with
    | none =>
      simp only [Option.bind_some, present, Option.map_none, Option.none_or, Option.map_some,
        (kept value rfl).alone present]
      exact .some (.refl value)
    | some a =>
      simp only [Option.bind_some, present, Option.map_some, Option.some_or]
      exact .some ((kept value rfl).same a present)

end Kept

/-! ## Values that survive -/

/-- A value survives reading and writing, as a definition and as a field. -/
structure RoundTrips (layout : Layout) (value : Json) : Prop where
  node : Node.ofJson layout (Node.ofJson layout value).toJson = Node.ofJson layout value
  nodeForm : SameData (Node.ofJson layout value).toJson (value.nodeForm layout)
  isReference : (Node.ofJson layout value).toJson.isReference = value.isReference
  isRef : (Node.ofJson layout value).isRef = value.isReference
  isReference_form : (value.nodeForm layout).isReference = value.isReference
  field : Field.ofJson layout (Field.ofJson layout value).toJson = Field.ofJson layout value
  fieldForm : SameData (Field.ofJson layout value).toJson (value.fieldForm layout)

/-- The values directly inside a value. -/
def Json.children : Json → List Json
  | .arr items => items
  | .obj members => members.map (·.2)
  | _ => []

namespace RoundTrips

variable {layout : Layout}

theorem fields {values : List Json} (h : ∀ value ∈ values, RoundTrips layout value) :
    Field.listOfJson layout (Field.listToJson (Field.listOfJson layout values))
        = Field.listOfJson layout values ∧
      SameItems (Field.listToJson (Field.listOfJson layout values)) (fieldForms layout values) := by
  induction values with
  | nil => exact ⟨rfl, trivial⟩
  | cons value rest ih =>
    obtain ⟨first, rest⟩ := List.forall_mem_cons.1 h
    obtain ⟨again, same⟩ := ih rest
    refine ⟨?_, first.fieldForm, same⟩
    rw [Field.listOfJson, Field.listToJson, Field.listOfJson, again, first.field]

theorem named {members : Members} (h : ∀ entry ∈ members, RoundTrips layout entry.2) :
    Field.entriesOfJson layout (Field.entriesToJson (Field.entriesOfJson layout members))
        = Field.entriesOfJson layout members ∧
      SameMembers (Field.entriesToJson (Field.entriesOfJson layout members))
        (namedForms layout members) := by
  induction members with
  | nil => exact ⟨rfl, trivial⟩
  | cons entry rest ih =>
    obtain ⟨first, rest⟩ := List.forall_mem_cons.1 h
    obtain ⟨again, same⟩ := ih rest
    refine ⟨?_, rfl, first.fieldForm, same⟩
    rw [Field.entriesOfJson, Field.entriesToJson, Field.entriesOfJson, again, first.field]

end RoundTrips

/-! ## Readers -/

section Readers

variable {layout : Layout} {form : Json → Json} {value : Json}

theorem exists_obj_of_sameData {members : Members} (h : SameData value (.obj members)) :
    ∃ members', value = .obj members' := by
  cases value with
  | obj members' => exact ⟨members', rfl⟩
  | _ => simp [SameData] at h

theorem kept_fields (inside : ∀ w ∈ value.children, RoundTrips layout w)
    (list : ∀ values, form (.arr values) = .arr (fieldForms layout values))
    (other : value.isArr = false → form value = value) :
    Kept (fields? layout) (fun fields => .arr (Field.listToJson fields)) form value := by
  cases value with
  | arr values =>
    obtain ⟨again, same⟩ := RoundTrips.fields inside
    refine kept_of_some rfl (congrArg some again) ?_
    rw [list, SameData]
    exact same
  | _ => exact kept_of_none rfl (other rfl)

theorem kept_named (inside : ∀ w ∈ value.children, RoundTrips layout w)
    (map : ∀ members, form (.obj members) = .obj (namedForms layout members))
    (other : value.isObj = false → form value = value) :
    Kept (named? layout) (fun fields => .obj (Field.entriesToJson fields)) form value := by
  cases value with
  | obj members =>
    obtain ⟨again, same⟩ := RoundTrips.named fun entry member =>
      inside entry.2 (List.mem_map_of_mem member)
    refine kept_of_some rfl (congrArg some again) ?_
    rw [map, SameData]
    exact ⟨_, .refl _, same⟩
  | _ => exact kept_of_none rfl (other rfl)

theorem kept_field (here : RoundTrips layout value)
    (object : ∀ members, form (.obj members) = fieldForm layout (.obj members))
    (other : value.isObj = false → form value = value) :
    Kept (field? layout) Field.toJson form value := by
  cases value with
  | obj members =>
    have same := here.fieldForm
    have again := here.field
    refine kept_of_some rfl ?_ (by rwa [object])
    rw [fieldForm] at same
    obtain ⟨members', written⟩ := exists_obj_of_sameData same
    rw [written] at again ⊢
    exact congrArg some again
  | _ => exact kept_of_none rfl (other rfl)

theorem kept_anyField (here : RoundTrips layout value)
    (all : form value = fieldForm layout value) :
    Kept (anyField? layout) Field.toJson form value :=
  kept_of_some rfl (congrArg some here.field) (by rw [all]; exact here.fieldForm)

end Readers

/-! ## Objects -/

/-- Members that are written for others: the names are distinct, and every name leads to the form of
the member that it led to. -/
structure Written (layout : Layout) (kind : SchemaKind) (members written : Members) : Prop where
  distinct : written.Distinct
  related : ∀ key, Option.Rel SameData (Entries.find? key written)
    ((Entries.find? key members).map (memberForm layout kind key))

theorem Written.sameData {layout : Layout} {kind : SchemaKind} {members written : Members}
    (h : Written layout kind members written) (distinct : members.Distinct) :
    SameData (.obj written) (.obj (membersForm layout kind members)) := by
  refine sameData_of_find? h.distinct ?_ fun key => ?_
  · rwa [Entries.Distinct, keys_membersForm]
  · rw [find?_membersForm]
    exact h.related key

theorem written_moved {layout : Layout} {kind : SchemaKind} {members taken : Members}
    (distinct : members.Distinct) (keys : (Entries.keys taken).Sublist kind.keys)
    (related : ∀ key ∈ kind.keys, Option.Rel SameData
      ((Entries.find? key taken).or (Entries.find? key members))
      ((Entries.find? key members).map (memberForm layout kind key))) :
    Written layout kind members (Entries.moved taken members) where
  distinct := Entries.distinct_moved distinct (kind.nodup_keys.sublist keys)
  related key := by
    rw [Entries.find?_moved taken distinct]
    by_cases isKey : key ∈ kind.keys
    · exact related key isKey
    · have absent := Entries.find?_eq_none_iff.2 fun member => isKey (keys.subset member)
      rw [absent, Option.none_or, funext (memberForm_of_notMem isKey layout), Option.map_id']
      exact optionRel_refl SameData.refl _

namespace Parts

/-- The items as they are written. -/
def itemsMember (parts : Parts) : Members :=
  optionalMember "items" (parts.items.map Field.toJson)

/-- The values of a dictionary as they are written. -/
def additionalMember (parts : Parts) : Members :=
  optionalMember "additionalProperties" (parts.additional.map Field.toJson)

/-- The interpreted members of an object as they are written. -/
def objectMembers (parts : Parts) : Members :=
  optionalMember "properties" (parts.properties.map fun fields => .obj (Field.entriesToJson fields))
    ++ parts.additionalMember
    ++ optionalMember "oneOf" (parts.oneOf.map fun fields => .arr (Field.listToJson fields))
    ++ optionalMember "anyOf" (parts.anyOf.map fun fields => .arr (Field.listToJson fields))
    ++ optionalMember "not" (parts.negated.map Field.toJson)

theorem keys_itemsMember_sublist (parts : Parts) :
    (Entries.keys parts.itemsMember).Sublist SchemaKind.array.keys :=
  keys_optionalMember_sublist ..

theorem keys_additionalMember_sublist (parts : Parts) :
    (Entries.keys parts.additionalMember).Sublist SchemaKind.dictionary.keys :=
  keys_optionalMember_sublist ..

theorem keys_objectMembers_sublist (parts : Parts) :
    (Entries.keys parts.objectMembers).Sublist SchemaKind.object.keys := by
  simp only [objectMembers, additionalMember, Entries.keys_append]
  exact ((((keys_optionalMember_sublist ..).append (keys_optionalMember_sublist ..)).append
    (keys_optionalMember_sublist ..)).append (keys_optionalMember_sublist ..)).append
    (keys_optionalMember_sublist ..)

end Parts

section Objects

variable {layout : Layout} {members : Members} (distinct : members.Distinct)
  (inside : ∀ key value, Entries.find? key members = some value →
    RoundTrips layout value ∧ ∀ w ∈ value.children, RoundTrips layout w)

include distinct inside

theorem written_array :
    Written layout .array members
      (Entries.moved (Parts.found layout members).itemsMember members) ∧
    Parts.found layout (Entries.moved (Parts.found layout members).itemsMember members)
      = Parts.found layout members := by
  have kept : ∀ value ∈ Entries.find? "items" members,
      Kept (anyField? layout) Field.toJson (memberForm layout .array "items") value :=
    fun value present => kept_anyField (inside _ value present).1 (by cases value <;> rfl)
  refine ⟨written_moved distinct (Parts.keys_itemsMember_sublist _) ?_, ?_⟩
  · simp only [SchemaKind.keys, List.forall_mem_singleton, Parts.itemsMember, find?_optionalMember,
      if_true]
    exact rel_or_of_kept kept
  · have again := bind_or_of_kept kept
    simp only [Parts.found, Parts.itemsMember, Entries.find?_moved _ distinct,
      find?_optionalMember, String.reduceEq, if_true, if_false, Option.none_or]
    exact congrArg (fun items => { Parts.found layout members with items }) again

theorem written_dictionary :
    Written layout .dictionary members
      (Entries.moved (Parts.found layout members).additionalMember members) ∧
    Parts.found layout (Entries.moved (Parts.found layout members).additionalMember members)
      = Parts.found layout members := by
  have kept : ∀ value ∈ Entries.find? "additionalProperties" members,
      Kept (field? layout) Field.toJson (memberForm layout .dictionary "additionalProperties")
        value := by
    intro value present
    exact kept_field (inside _ value present).1 (fun _ => rfl)
      (by cases value <;> simp [isObj, memberForm])
  refine ⟨written_moved distinct (Parts.keys_additionalMember_sublist _) ?_, ?_⟩
  · simp only [SchemaKind.keys, List.forall_mem_singleton, Parts.additionalMember,
      find?_optionalMember, if_true]
    exact rel_or_of_kept kept
  · have again := bind_or_of_kept kept
    simp only [Parts.found, Parts.additionalMember, Entries.find?_moved _ distinct,
      find?_optionalMember, String.reduceEq, if_true, if_false, Option.none_or]
    exact congrArg (fun additional => { Parts.found layout members with additional }) again

theorem written_object :
    Written layout .object members
      (Entries.moved (Parts.found layout members).objectMembers members) ∧
    Parts.found layout (Entries.moved (Parts.found layout members).objectMembers members)
      = Parts.found layout members := by
  have properties : ∀ value ∈ Entries.find? "properties" members,
      Kept (named? layout) (fun fields => .obj (Field.entriesToJson fields))
        (memberForm layout .object "properties") value := fun value present =>
    kept_named (inside _ value present).2 (fun _ => rfl)
      (by cases value <;> simp [isObj, memberForm])
  have additional : ∀ value ∈ Entries.find? "additionalProperties" members,
      Kept (field? layout) Field.toJson (memberForm layout .object "additionalProperties") value :=
    fun value present => kept_field (inside _ value present).1 (fun _ => rfl)
      (by cases value <;> simp [isObj, memberForm])
  have oneOf : ∀ value ∈ Entries.find? "oneOf" members,
      Kept (fields? layout) (fun fields => .arr (Field.listToJson fields))
        (memberForm layout .object "oneOf") value := fun value present =>
    kept_fields (inside _ value present).2 (fun _ => rfl)
      (by cases value <;> simp [isArr, memberForm])
  have anyOf : ∀ value ∈ Entries.find? "anyOf" members,
      Kept (fields? layout) (fun fields => .arr (Field.listToJson fields))
        (memberForm layout .object "anyOf") value := fun value present =>
    kept_fields (inside _ value present).2 (fun _ => rfl)
      (by cases value <;> simp [isArr, memberForm])
  have negated : ∀ value ∈ Entries.find? "not" members,
      Kept (field? layout) Field.toJson (memberForm layout .object "not") value :=
    fun value present => kept_field (inside _ value present).1 (fun _ => rfl)
      (by cases value <;> simp [isObj, memberForm])
  refine ⟨written_moved distinct (Parts.keys_objectMembers_sublist _) ?_, ?_⟩
  · simp only [SchemaKind.keys, List.forall_mem_cons, Parts.objectMembers, Parts.additionalMember,
      Entries.find?_append, find?_optionalMember, String.reduceEq, if_true, if_false,
      Option.none_or, Option.or_none]
    exact ⟨rel_or_of_kept properties, rel_or_of_kept additional, rel_or_of_kept oneOf,
      rel_or_of_kept anyOf, rel_or_of_kept negated, fun _ member => absurd member List.not_mem_nil⟩
  · simp only [Parts.found, Parts.objectMembers, Parts.additionalMember, Entries.find?_append,
      Entries.find?_moved _ distinct, find?_optionalMember, String.reduceEq, if_true, if_false,
      Option.none_or, Option.or_none]
    rw [bind_or_of_kept properties, bind_or_of_kept additional, bind_or_of_kept oneOf,
      bind_or_of_kept anyOf, bind_or_of_kept negated]

end Objects

end SchemaBundle
