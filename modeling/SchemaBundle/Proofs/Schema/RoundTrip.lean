import Mathlib.Order.Nat
import SchemaBundle.Proofs.Schema.Written

/-!
# Schemas survive reading and writing

A schema that is read, written and read again is the same, and what is written differs from what
was read in the order of members alone, apart from the changes that `Json.nodeForm` and
`Json.fieldForm` make (`schema_roundTrip`). This is by induction on the value, and for an object by
its kind: whatever the kind, the object that is written has the same kind again.
-/

namespace SchemaBundle

open Json

/-! ## Classification -/

section Kinds

variable {layout : Layout} {members : Members}

/-- A member has the shape that its reader expects if something is read of it. -/
theorem has_eq {α : Type} {read : Json → Option α} {shape : Json → Bool}
    (h : ∀ value, (read value).isSome = shape value) (key : String) (members : Members) :
    has key shape members = ((Entries.find? key members).bind read).isSome := by
  unfold has
  cases Entries.find? key members with
  | none => rfl
  | some value => exact (h value).symm

theorem isSome_text? (value : Json) : value.text?.isSome = value.isStr := by
  cases value <;> rfl

theorem isSome_nodes? (value : Json) : (value.nodes? layout).isSome = value.isArr := by
  cases value <;> rfl

theorem isSome_fields? (value : Json) : (value.fields? layout).isSome = value.isArr := by
  cases value <;> rfl

theorem isSome_field? (value : Json) : (value.field? layout).isSome = value.isObj := by
  cases value <;> rfl

theorem isSome_named? (value : Json) : (value.named? layout).isSome = value.isObj := by
  cases value <;> rfl

variable (layout members)

theorem nodeKind_eq : nodeKind members =
    if (Parts.found layout members).reference.isSome then .reference
    else if (Parts.found layout members).allOf.isSome then .composition
    else if isArraySchema members then .array
    else .object := by
  rw [nodeKind, has_eq isSome_text?, has_eq (@isSome_nodes? layout)]
  rfl

theorem fieldKind_eq : fieldKind members =
    if (Parts.found layout members).reference.isSome then .reference
    else if (Parts.found layout members).isInlineSchema then nodeKind members
    else if isArraySchema members then .array
    else if (Parts.found layout members).additional.isSome then .dictionary
    else .scalar := by
  rw [fieldKind, has_eq isSome_text?, has_eq (@isSome_nodes? layout),
    has_eq (@isSome_fields? layout), has_eq (@isSome_fields? layout),
    has_eq (@isSome_named? layout), has_eq (@isSome_field? layout),
    has_eq (@isSome_field? layout)]
  rfl

theorem isReference_obj : (Json.obj members).isReference
    = (Parts.found layout members).reference.isSome :=
  has_eq isSome_text? "$ref" members

theorem contains_items : Entries.contains "items" members
    = (Parts.found layout members).items.isSome := by
  unfold Entries.contains Parts.found
  cases Entries.find? "items" members <;> rfl

variable {layout members}

theorem isArraySchema_moved {kind : SchemaKind} {taken : Members} (distinct : members.Distinct)
    (keys : (Entries.keys taken).Sublist kind.keys)
    (same : Parts.found layout (Entries.moved taken members) = Parts.found layout members) :
    isArraySchema (Entries.moved taken members) = isArraySchema members := by
  have noType : "type" ∉ kind.keys := by cases kind <;> decide
  have absent := Entries.find?_eq_none_iff.2 fun member => noType (keys.subset member)
  unfold isArraySchema
  rw [contains_items layout, contains_items layout, same, Entries.find?_moved taken distinct,
    absent, Option.none_or]

end Kinds

/-! ## Reading again -/

section Again

variable {layout : Layout} {members : Members}

theorem Node.ofJson_obj (distinct : members.Distinct) :
    Node.ofJson layout (.obj members)
      = Node.ofParts layout members (Parts.found layout members) := by
  rw [Node.ofJson, Parts.ofMembers_eq layout distinct]

theorem Field.ofJson_obj (distinct : members.Distinct) :
    Field.ofJson layout (.obj members)
      = Field.ofParts layout members (Parts.found layout members) := by
  rw [Field.ofJson, Parts.ofMembers_eq layout distinct]

theorem Field.optionToJson_eq_map (field : Option Field) :
    optionToJson field = field.map toJson := by
  cases field <;> rfl

theorem Field.optionListToJson_eq_map (fields : Option (List Field)) :
    optionListToJson fields = fields.map fun fields => .arr (listToJson fields) := by
  cases fields <;> rfl

theorem Field.namedToJson_eq_map (fields : Option (List (String × Field))) :
    namedToJson fields = fields.map fun fields => .obj (entriesToJson fields) := by
  cases fields <;> rfl

/-- The items are taken out if there are any. -/
theorem erase_items : Entries.erase "items" members
    = Entries.without (Parts.found layout members).itemsMember members := by
  have present := contains_items layout members
  unfold Parts.itemsMember
  cases items : (Parts.found layout members).items with
  | none =>
    rw [items, Entries.contains, Option.isSome_none, Option.isSome_eq_false_iff,
      Option.isNone_iff_eq_none, Entries.find?_eq_none_iff] at present
    exact Entries.erase_of_notMem present
  | some field => rfl

theorem without_objectMembers (parts : Parts) (members : Members) :
    Entries.without parts.objectMembers members
      = (dropTaken "not" parts.negated <| dropTaken "anyOf" parts.anyOf <|
          dropTaken "oneOf" parts.oneOf <| dropTaken "additionalProperties" parts.additional <|
          dropTaken "properties" parts.properties members) := by
  simp only [Parts.objectMembers, Parts.additionalMember, Entries.without_append, ← dropTaken_eq]

/-- What a definition is written as: members of which the same definition is read. -/
structure NodeAgain (layout : Layout) (members written : Members) : Prop extends
    Written layout (nodeKind members) members written where
  toJson : (Node.ofParts layout members (Parts.found layout members)).toJson = .obj written
  again : Node.ofParts layout written (Parts.found layout written)
    = Node.ofParts layout members (Parts.found layout members)
  isReference : (Parts.found layout written).reference.isSome
    = (Parts.found layout members).reference.isSome
  isInlineSchema : (Parts.found layout written).isInlineSchema
    = (Parts.found layout members).isInlineSchema

/-- What a field is written as: members of which the same field is read. -/
structure FieldAgain (layout : Layout) (members written : Members) : Prop extends
    Written layout (fieldKind members) members written where
  toJson : (Field.ofParts layout members (Parts.found layout members)).toJson = .obj written
  again : Field.ofParts layout written (Parts.found layout written)
    = Field.ofParts layout members (Parts.found layout members)

/-- The members of a reference as they are written. -/
def referenceMembers (layout : Layout) (text : String) (members : Members) : Members :=
  ("$ref", .str (Reference.normalize text layout).1) :: Entries.erase "$ref" members

theorem find?_referenceMembers (text key : String) (members : Members) :
    Entries.find? key (referenceMembers layout text members)
      = if "$ref" = key then some (.str (Reference.normalize text layout).1)
        else Entries.find? key members := by
  by_cases isRef : "$ref" = key
  · simp [referenceMembers, Entries.find?, isRef]
  · simp [referenceMembers, Entries.find?, isRef, Entries.find?_erase_of_ne isRef]

theorem found_referenceMembers (text : String) (members : Members) :
    Parts.found layout (referenceMembers layout text members)
      = { Parts.found layout members with
          reference := some (Reference.normalize text layout).1 } := by
  simp only [Parts.found, find?_referenceMembers, String.reduceEq, if_true, if_false]
  rfl

theorem written_reference (distinct : members.Distinct) {text : String}
    (present : Entries.find? "$ref" members = some (.str text)) :
    Written layout .reference members (referenceMembers layout text members) where
  distinct := by
    refine List.nodup_cons.2 ⟨?_, Entries.distinct_erase distinct "$ref"⟩
    exact Entries.find?_eq_none_iff.1 (Entries.find?_erase_self distinct "$ref")
  related key := by
    rw [find?_referenceMembers]
    by_cases isRef : "$ref" = key
    · subst isRef
      rw [present, if_pos rfl]
      exact .some (.refl _)
    · have isKey : key ∉ SchemaKind.reference.keys := by
        simpa [SchemaKind.keys] using Ne.symm isRef
      rw [if_neg isRef, funext (memberForm_of_notMem isKey layout), Option.map_id']
      exact optionRel_refl SameData.refl _

/-- A reference is read again as the same. -/
theorem ofText_normalize (text : String) (layout : Layout) (extra : Members) :
    RefNode.ofText (Reference.normalize text layout).1 layout extra
      = RefNode.ofText text layout extra := by
  rw [RefNode.ofText, Reference.normalize_normalize]
  rfl

theorem erase_referenceMembers (text : String) (members : Members) :
    Entries.erase "$ref" (referenceMembers layout text members)
      = Entries.erase "$ref" members := by
  rw [referenceMembers, Entries.erase, if_pos rfl]

theorem exists_str_of_reference {text : String}
    (h : (Parts.found layout members).reference = some text) :
    Entries.find? "$ref" members = some (.str text) := by
  obtain ⟨value, present, read⟩ := Option.bind_eq_some_iff.1 h
  cases value with
  | str text' => rwa [← Option.some.inj read]
  | _ => cases read

theorem exists_arr_of_allOf {nodes : List Node}
    (h : (Parts.found layout members).allOf = some nodes) :
    ∃ values, Entries.find? "allOf" members = some (.arr values) ∧
      nodes = values.map (Node.ofJson layout) := by
  obtain ⟨value, present, read⟩ := Option.bind_eq_some_iff.1 h
  cases value with
  | arr values =>
    refine ⟨values, present, ?_⟩
    rw [← Node.listOfJson_eq_map, Option.some.inj read]
  | _ => cases read

theorem nodeAgain_reference (distinct : members.Distinct) {text : String}
    (reference : (Parts.found layout members).reference = some text) :
    NodeAgain layout members (referenceMembers layout text members) := by
  have found := @found_referenceMembers layout text members
  have kind : nodeKind members = .reference := by
    simp [nodeKind_eq layout members, reference]
  have written := @written_reference layout _ distinct _ (exists_str_of_reference reference)
  refine { toWritten := kind ▸ written, toJson := ?_, again := ?_, isReference := ?_,
           isInlineSchema := ?_ }
  · rw [Node.ofParts, reference]
    rfl
  · rw [found, Node.ofParts, Node.ofParts, reference]
    dsimp only
    rw [erase_referenceMembers, ofText_normalize]
  · rw [found, reference]
    rfl
  · rw [found]
    rfl

theorem fieldAgain_reference (distinct : members.Distinct) {text : String}
    (reference : (Parts.found layout members).reference = some text) :
    FieldAgain layout members (referenceMembers layout text members) := by
  have kind : fieldKind members = .reference := by
    simp [fieldKind_eq layout members, reference]
  have written := @written_reference layout _ distinct _ (exists_str_of_reference reference)
  refine { toWritten := kind ▸ written, toJson := ?_, again := ?_ }
  · rw [Field.ofParts, reference]
    rfl
  · rw [found_referenceMembers, Field.ofParts, Field.ofParts, reference]
    dsimp only
    rw [erase_referenceMembers, ofText_normalize]

/-- The members of a composition as they are written. -/
def compositionMember (nodes : List Node) : Members :=
  [("allOf", .arr ((middleSorted Node.isRef nodes).map Node.toJson))]

section Inside

variable (distinct : members.Distinct)
  (inside : ∀ key value, Entries.find? key members = some value →
    RoundTrips layout value ∧ ∀ w ∈ value.children, RoundTrips layout w)

include distinct inside

theorem written_composition {values : List Json}
    (present : Entries.find? "allOf" members = some (.arr values)) :
    Written layout .composition members
      (Entries.moved (compositionMember (values.map (Node.ofJson layout))) members) ∧
    Parts.found layout (Entries.moved (compositionMember (values.map (Node.ofJson layout))) members)
      = { Parts.found layout members with
          allOf := some (middleSorted Node.isRef (values.map (Node.ofJson layout))) } := by
  have each : ∀ value ∈ values, RoundTrips layout value := (inside _ _ present).2
  have sorted : ∀ value ∈ middleSorted isReference values, RoundTrips layout value :=
    fun value member => each value ((perm_middleSorted isReference values).subset member)
  have nodes : middleSorted Node.isRef (values.map (Node.ofJson layout))
      = (middleSorted isReference values).map (Node.ofJson layout) :=
    (map_middleSorted fun value member => (each value member).isRef).symm
  have forms : middleSorted isReference (nodeForms layout values)
      = (middleSorted isReference values).map (nodeForm layout) := by
    rw [nodeForms_eq_map]
    exact (map_middleSorted fun value member => (each value member).isReference_form).symm
  constructor
  · refine written_moved distinct (.refl _) ?_
    simp only [SchemaKind.keys, List.forall_mem_singleton, compositionMember, Entries.find?,
      if_true, Option.some_or, present, Option.map_some]
    refine .some ?_
    rw [memberForm, forms, nodes, SameData, sameItems_iff, List.map_map,
      List.forall₂_map_left_iff, List.forall₂_map_right_iff, List.forall₂_same]
    exact fun value member => (sorted value member).nodeForm
  · have again : ((middleSorted Node.isRef (values.map (Node.ofJson layout))).map Node.toJson).map
        (Node.ofJson layout) = middleSorted Node.isRef (values.map (Node.ofJson layout)) := by
      rw [nodes, List.map_map, List.map_map]
      exact List.map_congr_left fun value member => (sorted value member).node
    simp only [Parts.found, compositionMember, Entries.find?_moved _ distinct, Entries.find?,
      String.reduceEq, if_true, if_false, Option.none_or, Option.some_or, Option.bind_some, nodes?,
      Node.listOfJson_eq_map]
    rw [again]

theorem nodeAgain_composition {nodes : List Node}
    (reference : (Parts.found layout members).reference = none)
    (allOf : (Parts.found layout members).allOf = some nodes) :
    NodeAgain layout members (Entries.moved (compositionMember nodes) members) := by
  obtain ⟨values, present, rfl⟩ := exists_arr_of_allOf allOf
  obtain ⟨written, found⟩ := written_composition distinct inside present
  have kind : nodeKind members = .composition := by
    simp [nodeKind_eq layout members, reference, allOf]
  refine { toWritten := kind ▸ written, toJson := ?_, again := ?_, isReference := ?_,
           isInlineSchema := ?_ }
  · rw [Node.ofParts, reference, allOf]
    exact Node.toJson_ofMembers _ _
  · have extra := Entries.without_moved
      (compositionMember (values.map (Node.ofJson layout))) distinct
    rw [found, Node.ofParts, Node.ofParts, reference, allOf]
    dsimp only
    rw [Node.ofMembers_middleSorted]
    exact congrArg (Node.ofMembers _) extra
  · rw [found]
  · rw [found, Parts.isInlineSchema, Parts.isInlineSchema, allOf]
    rfl

theorem nodeAgain_array (reference : (Parts.found layout members).reference = none)
    (allOf : (Parts.found layout members).allOf = none) (array : isArraySchema members = true) :
    NodeAgain layout members
      (Entries.moved (Parts.found layout members).itemsMember members) := by
  obtain ⟨written, found⟩ := written_array distinct inside
  have array' := isArraySchema_moved distinct (Parts.keys_itemsMember_sublist _) found
  have kind : nodeKind members = .array := by
    simp [nodeKind_eq layout members, reference, allOf, array]
  refine { toWritten := kind ▸ written, toJson := ?_, again := ?_, isReference := ?_,
           isInlineSchema := ?_ }
  · rw [Node.ofParts, reference, allOf]
    simp only [array, if_true]
    rw [@erase_items layout, Node.toJson, Field.optionToJson_eq_map]
    rfl
  · rw [found, Node.ofParts, Node.ofParts, reference, allOf]
    simp only [array, array', if_true]
    rw [@erase_items layout, @erase_items layout, found,
      Entries.without_moved _ distinct]
  · rw [found]
  · rw [found]

theorem nodeAgain_object (reference : (Parts.found layout members).reference = none)
    (allOf : (Parts.found layout members).allOf = none) (array : isArraySchema members = false) :
    NodeAgain layout members
      (Entries.moved (Parts.found layout members).objectMembers members) := by
  obtain ⟨written, found⟩ := written_object distinct inside
  have array' := isArraySchema_moved distinct (Parts.keys_objectMembers_sublist _) found
  have kind : nodeKind members = .object := by
    simp [nodeKind_eq layout members, reference, allOf, array]
  refine { toWritten := kind ▸ written, toJson := ?_, again := ?_, isReference := ?_,
           isInlineSchema := ?_ }
  · rw [Node.ofParts, reference, allOf]
    simp only [array, Bool.false_eq_true, if_false]
    rw [← without_objectMembers, Node.toJson, Field.optionToJson_eq_map,
      Field.optionToJson_eq_map, Field.optionListToJson_eq_map, Field.optionListToJson_eq_map,
      Field.namedToJson_eq_map]
    simp only [Entries.moved, Parts.objectMembers, Parts.additionalMember, List.append_assoc]
  · rw [found, Node.ofParts, Node.ofParts, reference, allOf]
    simp only [array, array', Bool.false_eq_true, if_false]
    rw [← without_objectMembers, ← without_objectMembers, Entries.without_moved _ distinct]
  · rw [found]
  · rw [found]

/-- Whatever the members are, the definition that is read of them is read again. -/
theorem exists_nodeAgain : ∃ written, NodeAgain layout members written := by
  cases reference : (Parts.found layout members).reference with
  | some text => exact ⟨_, nodeAgain_reference distinct reference⟩
  | none =>
    cases allOf : (Parts.found layout members).allOf with
    | some nodes => exact ⟨_, nodeAgain_composition distinct inside reference allOf⟩
    | none =>
      cases array : isArraySchema members with
      | true => exact ⟨_, nodeAgain_array distinct inside reference allOf array⟩
      | false => exact ⟨_, nodeAgain_object distinct inside reference allOf array⟩

theorem fieldAgain_inline (reference : (Parts.found layout members).reference = none)
    (inline : (Parts.found layout members).isInlineSchema = true) :
    ∃ written, FieldAgain layout members written := by
  obtain ⟨written, again⟩ := exists_nodeAgain distinct inside
  have none : (Parts.found layout written).reference = none := by
    rw [← Option.not_isSome_iff_eq_none, again.isReference, reference]
    exact Bool.false_ne_true
  have kind : fieldKind members = nodeKind members := by
    simp [fieldKind_eq layout members, reference, inline]
  refine ⟨written, { toWritten := kind ▸ again.toWritten, toJson := ?_, again := ?_ }⟩
  · rw [Field.ofParts, reference, inline]
    exact again.toJson
  · rw [Field.ofParts, Field.ofParts, reference, none, again.isInlineSchema, inline]
    exact congrArg Field.schema again.again

theorem fieldAgain_array (reference : (Parts.found layout members).reference = none)
    (inline : (Parts.found layout members).isInlineSchema = false)
    (array : isArraySchema members = true) :
    FieldAgain layout members
      (Entries.moved (Parts.found layout members).itemsMember members) := by
  obtain ⟨written, found⟩ := written_array distinct inside
  have array' := isArraySchema_moved distinct (Parts.keys_itemsMember_sublist _) found
  have kind : fieldKind members = .array := by
    simp [fieldKind_eq layout members, reference, inline, array]
  refine { toWritten := kind ▸ written, toJson := ?_, again := ?_ }
  · rw [Field.ofParts, reference]
    simp only [inline, array, Bool.false_eq_true, if_false, if_true]
    rw [@erase_items layout, Field.toJson, Field.optionToJson_eq_map]
    rfl
  · rw [found, Field.ofParts, Field.ofParts, reference]
    simp only [inline, array, array', Bool.false_eq_true, if_false, if_true]
    rw [@erase_items layout, @erase_items layout, found, Entries.without_moved _ distinct]

theorem fieldAgain_dictionary {field : Field}
    (reference : (Parts.found layout members).reference = none)
    (inline : (Parts.found layout members).isInlineSchema = false)
    (array : isArraySchema members = false)
    (additional : (Parts.found layout members).additional = some field) :
    FieldAgain layout members
      (Entries.moved (Parts.found layout members).additionalMember members) := by
  obtain ⟨written, found⟩ := written_dictionary distinct inside
  have array' := isArraySchema_moved distinct (Parts.keys_additionalMember_sublist _) found
  have kind : fieldKind members = .dictionary := by
    simp [fieldKind_eq layout members, reference, inline, array, additional]
  have extra := Entries.without_moved (Parts.found layout members).additionalMember distinct
  have member : (Parts.found layout members).additionalMember
      = [("additionalProperties", field.toJson)] := by
    rw [Parts.additionalMember, additional]
    rfl
  refine { toWritten := kind ▸ written, toJson := ?_, again := ?_ }
  · rw [Field.ofParts, reference]
    simp only [inline, array, additional, Bool.false_eq_true, if_false]
    rw [member, Field.toJson]
    rfl
  · rw [found, Field.ofParts, Field.ofParts, reference]
    simp only [inline, array, array', additional, Bool.false_eq_true, if_false]
    rw [member] at extra ⊢
    exact congrArg (Field.map field) extra

omit inside in
theorem fieldAgain_scalar (reference : (Parts.found layout members).reference = none)
    (inline : (Parts.found layout members).isInlineSchema = false)
    (array : isArraySchema members = false)
    (additional : (Parts.found layout members).additional = none) :
    FieldAgain layout members members := by
  have kind : fieldKind members = .scalar := by
    simp [fieldKind_eq layout members, reference, inline, array, additional]
  have form : ∀ key, memberForm layout .scalar key = id := fun key =>
    funext (memberForm_of_notMem List.not_mem_nil layout)
  refine { toWritten := ⟨distinct, fun key => ?_⟩, toJson := ?_, again := rfl }
  · rw [kind, form, Option.map_id]
    exact optionRel_refl SameData.refl _
  · rw [Field.ofParts, reference]
    simp only [inline, array, additional, Bool.false_eq_true, if_false]
    rfl

/-- Whatever the members are, the field that is read of them is read again. -/
theorem exists_fieldAgain : ∃ written, FieldAgain layout members written := by
  cases reference : (Parts.found layout members).reference with
  | some text => exact ⟨_, fieldAgain_reference distinct reference⟩
  | none =>
    cases inline : (Parts.found layout members).isInlineSchema with
    | true => exact fieldAgain_inline distinct inside reference inline
    | false =>
      cases array : isArraySchema members with
      | true => exact ⟨_, fieldAgain_array distinct inside reference inline array⟩
      | false =>
        cases additional : (Parts.found layout members).additional with
        | some field =>
          exact ⟨_, fieldAgain_dictionary distinct inside reference inline array additional⟩
        | none => exact ⟨_, fieldAgain_scalar distinct reference inline array additional⟩

end Inside

end Again

/-! ## All values -/

section All

variable {layout : Layout}

theorem roundTrips_of_isObj_eq_false {value : Json} (flat : value.isObj = false) :
    RoundTrips layout value := by
  cases value with
  | obj members => cases flat
  | _ => exact ⟨rfl, .refl _, rfl, rfl, rfl, rfl, .refl _⟩

theorem isStr_memberForm (kind : SchemaKind) (key : String) (value : Json) :
    (memberForm layout kind key value).isStr = value.isStr := by
  cases value <;> unfold memberForm <;> first | rfl | (split <;> rfl)

theorem isReference_nodeForm (members : Members) :
    ((Json.obj members).nodeForm layout).isReference = (Json.obj members).isReference := by
  unfold nodeForm isReference member?
  dsimp only
  rw [find?_membersForm]
  cases Entries.find? "$ref" members with
  | none => rfl
  | some value => exact isStr_memberForm ..

theorem isRef_ofParts (members : Members) (parts : Parts) :
    (Node.ofParts layout members parts).isRef = parts.reference.isSome := by
  unfold Node.ofParts
  split
  · simp_all [Node.isRef, Node.ref?]
  · rename_i none allOf
    rw [none]
    unfold Node.ofMembers
    split <;> rfl
  · rename_i none allOf
    rw [none]
    split <;> rfl

/-- An object survives if everything inside does. -/
theorem roundTrips_obj {members : Members} (distinct : members.Distinct)
    (inside : ∀ entry ∈ members, RoundTrips layout entry.2 ∧
      ∀ w ∈ entry.2.children, RoundTrips layout w) :
    RoundTrips layout (.obj members) := by
  have inside' : ∀ key value, Entries.find? key members = some value →
      RoundTrips layout value ∧ ∀ w ∈ value.children, RoundTrips layout w :=
    fun key value present => inside _ (Entries.mem_of_find? present)
  obtain ⟨written, node⟩ := exists_nodeAgain distinct inside'
  obtain ⟨written', field⟩ := exists_fieldAgain distinct inside'
  refine ⟨?_, ?_, ?_, ?_, isReference_nodeForm members, ?_, ?_⟩
  · rw [Node.ofJson_obj distinct, node.toJson, Node.ofJson_obj node.distinct, node.again]
  · rw [Node.ofJson_obj distinct, node.toJson, nodeForm]
    exact node.sameData distinct
  · rw [Node.ofJson_obj distinct, node.toJson, isReference_obj layout, isReference_obj layout,
      node.isReference]
  · rw [Node.ofJson_obj distinct, isRef_ofParts, isReference_obj layout]
  · rw [Field.ofJson_obj distinct, field.toJson, Field.ofJson_obj field.distinct, field.again]
  · rw [Field.ofJson_obj distinct, field.toJson, fieldForm]
    exact field.sameData distinct

theorem sizeOf_of_mem_children {value w : Json} (member : w ∈ value.children) :
    sizeOf w < sizeOf value := by
  cases value with
  | arr items =>
    have isItem : w ∈ items := member
    have small := List.sizeOf_lt_of_mem isItem
    simp only [arr.sizeOf_spec]
    omega
  | obj members =>
    obtain ⟨⟨key, w⟩, isEntry, rfl⟩ := List.mem_map.1 member
    have small := List.sizeOf_lt_of_mem isEntry
    simp only [Prod.mk.sizeOf_spec, obj.sizeOf_spec] at small ⊢
    omega
  | _ => cases member

theorem wellFormed_of_mem_children {value w : Json} (wellFormed : value.WellFormed)
    (member : w ∈ value.children) : w.WellFormed := by
  cases value with
  | arr items => exact wellFormed_arr_iff.1 wellFormed w member
  | obj members =>
    obtain ⟨entry, isEntry, rfl⟩ := List.mem_map.1 member
    exact (wellFormed_obj_iff.1 wellFormed).2 entry isEntry
  | _ => cases member

/-- Every value survives, by induction on its size. -/
theorem roundTrips (value : Json) (wellFormed : value.WellFormed) : RoundTrips layout value := by
  induction size : sizeOf value using Nat.strong_induction_on generalizing value with
  | _ n ih =>
    subst size
    cases value with
    | obj members =>
      refine roundTrips_obj (wellFormed_obj_iff.1 wellFormed).1 fun entry member => ?_
      have child : entry.2 ∈ (Json.obj members).children := List.mem_map_of_mem member
      have small := sizeOf_of_mem_children child
      have wellFormed := wellFormed_of_mem_children wellFormed child
      refine ⟨ih _ small _ wellFormed rfl, fun w member => ?_⟩
      have smaller := sizeOf_of_mem_children member
      exact ih _ (smaller.trans small) w (wellFormed_of_mem_children wellFormed member) rfl
    | _ => exact roundTrips_of_isObj_eq_false rfl

end All

/-- **Schemas survive reading and writing.** Reading what was written of a value gives what was read
of the value. What was written differs from the value in the order of members alone, but that bare
names in references are expanded and the middle members of compositions are sorted, references
first, where a schema is expected. This is so of definitions and of fields, in both layouts. -/
theorem schema_roundTrip (layout : Layout) {value : Json} (wellFormed : value.WellFormed) :
    (Node.ofJson layout (Node.ofJson layout value).toJson = Node.ofJson layout value ∧
      SameData (Node.ofJson layout value).toJson (value.nodeForm layout)) ∧
    Field.ofJson layout (Field.ofJson layout value).toJson = Field.ofJson layout value ∧
      SameData (Field.ofJson layout value).toJson (value.fieldForm layout) :=
  have h := roundTrips value wellFormed
  ⟨⟨h.node, h.nodeForm⟩, h.field, h.fieldForm⟩

/-- A composition with a `$ref` that is no text, and with items that are not interpreted. -/
def Sample.mixed : Json :=
  .obj [("$ref", .int 7),
    ("allOf", .arr [.obj [("title", .str "first"), ("$ref", .str "Pet")], .bool true,
      .obj [("$ref", .str "b.yaml")], .obj [("allOf", .null)]]),
    ("items", .obj [("$ref", .str "Pet")])]

/-- The bare name in the first member is expanded and the reference in the middle comes to the front
of it. The items are left alone. -/
theorem schema_roundTrip_mixed : Sample.mixed.WellFormed ∧
    (Node.ofJson .swagger2 Sample.mixed).toJson = .obj [("$ref", .int 7),
      ("items", .obj [("$ref", .str "Pet")]),
      ("allOf", .arr [.obj [("$ref", .str "#/definitions/Pet"), ("title", .str "first")],
        .obj [("$ref", .str "b.yaml")], .bool true, .obj [("allOf", .null)]])] ∧
    Node.ofJson .swagger2 (Node.ofJson .swagger2 Sample.mixed).toJson
      = Node.ofJson .swagger2 Sample.mixed ∧
    SameData (Node.ofJson .swagger2 Sample.mixed).toJson (Sample.mixed.nodeForm .swagger2) := by
  have wellFormed : Sample.mixed.WellFormed := by
    simp [Sample.mixed, Json.WellFormed, WellFormedMembers, WellFormedItems, Entries.Distinct]
  exact ⟨wellFormed, rfl, (schema_roundTrip .swagger2 wellFormed).1⟩

end SchemaBundle
