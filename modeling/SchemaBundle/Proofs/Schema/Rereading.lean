import Mathlib.Order.Nat
import SchemaBundle.Proofs.Schema.Normal
import SchemaBundle.Proofs.Schema.RoundTrip

/-!
# Schemas whose references were changed

A schema that was read keeps its form when its references are made to point elsewhere
(`Node.Alike`). Reading what is written of such a schema gives the schema back with every reference
read anew (`ofJson_toJson_of_alike`), so the schema is read back as it is exactly if each of its
references is (`readsBack_iff`). As for schemas that were not changed, this is by induction on the
value that was read, and for an object by its kind.
-/

namespace SchemaBundle

open Json

/-! ## Schemas of one form -/

/-- The reference that is read of what is written of a reference. -/
def RefNode.reread (layout : Layout) (r : RefNode) : RefNode :=
  RefNode.ofText r.reference layout r.extra

/-- A reference without what it points at. -/
def RefNode.unaimed (r : RefNode) : RefNode :=
  ⟨"", .internal, r.extra⟩

/-- Two definitions differ at most in what their references point at. -/
def Node.Alike (a b : Node) : Prop :=
  a.mapRefs RefNode.unaimed = b.mapRefs RefNode.unaimed

/-- Two fields differ at most in what their references point at. -/
def Field.Alike (a b : Field) : Prop :=
  a.mapRefs RefNode.unaimed = b.mapRefs RefNode.unaimed

section RelWithin

variable {R : RefNode → RefNode → Prop} {cut : Prop}

theorem Part.RelWithin.mapRefs_eq {f : RefNode → RefNode} (hR : ∀ r r', R r r' → f r' = f r)
    {room : Nat} {x y : Part} (h : x.RelWithin R cut room y) : y.mapRefs f = x.mapRefs f := by
  induction room generalizing x y with
  | zero =>
    obtain ⟨a, rfl, rfl, -⟩ | ⟨r, r', rfl, rfl, changed⟩ := h.of_zero
    · rfl
    · exact congrArg Part.reference (hR r r' changed)
  | succ room ih =>
    obtain ⟨hollow, reference, below, -⟩ := h.relBelow
    apply Part.eq_of_below
    · rw [Part.hollow_mapRefs, Part.hollow_mapRefs, hollow]
    · rw [Part.reference?_mapRefs, Part.reference?_mapRefs, map_eq_of_optionRel f hR reference]
    · rw [Part.below_mapRefs, Part.below_mapRefs,
        map_eq_of_forall₂ (Part.mapRefs f) (fun _ _ h => ih h) below]

/-- Changing references keeps the form. -/
theorem Node.RelWithin.alike {room : Nat} {a b : Node} (h : Node.RelWithin R cut room a b)
    (hR : ∀ r r', R r r' → r'.unaimed = r.unaimed) : a.Alike b :=
  Node.part_injective (Part.RelWithin.mapRefs_eq (x := a.part) (y := b.part) hR h).symm

end RelWithin

/-! ### Inversion -/

section Inversion

variable {b : Node} {f : Field} {extra : Members}

theorem Node.Alike.ref {r : RefNode} (h : (Node.ref r).Alike b) :
    ∃ r', b = .ref r' ∧ r'.extra = r.extra := by
  unfold Node.Alike at h
  cases b with
  | ref r' =>
    simp only [Node.mapRefs, Node.ref.injEq, RefNode.unaimed, RefNode.mk.injEq, true_and] at h
    exact ⟨r', rfl, h.symm⟩
  | _ => simp [Node.mapRefs] at h

theorem Node.Alike.plain {value : Json} (h : (Node.plain value).Alike b) : b = .plain value := by
  unfold Node.Alike at h
  cases b with
  | plain value' =>
    simp only [Node.mapRefs, Node.plain.injEq] at h
    rw [h]
  | _ => simp [Node.mapRefs] at h

theorem Node.Alike.array {items : Option Field} (h : (Node.array items extra).Alike b) :
    ∃ items', b = .array items' extra ∧
      items.map (Field.mapRefs RefNode.unaimed) = items'.map (Field.mapRefs RefNode.unaimed) := by
  unfold Node.Alike at h
  cases b with
  | array items' extra' =>
    simp only [Node.mapRefs, Field.mapRefsOfOption_eq, Node.array.injEq] at h
    exact ⟨items', by rw [h.2], h.1⟩
  | _ => simp [Node.mapRefs] at h

theorem Node.Alike.composed {parent child : Option Node} {interfaces : List RefNode}
    {inline : List Node} (h : (Node.composed parent child interfaces inline extra).Alike b) :
    ∃ parent' child' interfaces' inline', b = .composed parent' child' interfaces' inline' extra ∧
      parent.map (Node.mapRefs RefNode.unaimed) = parent'.map (Node.mapRefs RefNode.unaimed) ∧
      child.map (Node.mapRefs RefNode.unaimed) = child'.map (Node.mapRefs RefNode.unaimed) ∧
      interfaces.map RefNode.unaimed = interfaces'.map RefNode.unaimed ∧
      inline.map (Node.mapRefs RefNode.unaimed) = inline'.map (Node.mapRefs RefNode.unaimed) := by
  unfold Node.Alike at h
  cases b with
  | composed parent' child' interfaces' inline' extra' =>
    simp only [Node.mapRefs, Node.mapRefsOfOption_eq, Node.mapRefsOfList_eq,
      Node.composed.injEq] at h
    obtain ⟨hp, hc, hi, hm, rfl⟩ := h
    exact ⟨parent', child', interfaces', inline', rfl, hp, hc, hi, hm⟩
  | _ => simp [Node.mapRefs] at h

/-- The same name, and fields without what their references point at. -/
def unaimedEntry (entry : String × Field) : String × Field :=
  (entry.1, entry.2.mapRefs RefNode.unaimed)

theorem Node.Alike.object {properties : Option (List (String × Field))} {additional : Option Field}
    {oneOf anyOf : Option (List Field)} {negated : Option Field}
    (h : (Node.object properties additional oneOf anyOf negated extra).Alike b) :
    ∃ properties' additional' oneOf' anyOf' negated',
      b = .object properties' additional' oneOf' anyOf' negated' extra ∧
      properties.map (List.map unaimedEntry) = properties'.map (List.map unaimedEntry) ∧
      additional.map (Field.mapRefs RefNode.unaimed)
        = additional'.map (Field.mapRefs RefNode.unaimed) ∧
      oneOf.map (List.map (Field.mapRefs RefNode.unaimed))
        = oneOf'.map (List.map (Field.mapRefs RefNode.unaimed)) ∧
      anyOf.map (List.map (Field.mapRefs RefNode.unaimed))
        = anyOf'.map (List.map (Field.mapRefs RefNode.unaimed)) ∧
      negated.map (Field.mapRefs RefNode.unaimed) = negated'.map (Field.mapRefs RefNode.unaimed) := by
  unfold Node.Alike at h
  cases b with
  | object properties' additional' oneOf' anyOf' negated' extra' =>
    simp only [Node.mapRefs, Field.mapRefsOfNamed_eq, Field.mapRefsOfOption_eq,
      Field.mapRefsOfOptionList_eq, Node.object.injEq] at h
    obtain ⟨hp, ha, ho, hy, hn, rfl⟩ := h
    exact ⟨properties', additional', oneOf', anyOf', negated', rfl, hp, ha, ho, hy, hn⟩
  | _ => simp [Node.mapRefs] at h

theorem Field.Alike.ref {r : RefNode} (h : (Field.ref r).Alike f) :
    ∃ r', f = .ref r' ∧ r'.extra = r.extra := by
  unfold Field.Alike at h
  cases f with
  | ref r' =>
    simp only [Field.mapRefs, Field.ref.injEq, RefNode.unaimed, RefNode.mk.injEq, true_and] at h
    exact ⟨r', rfl, h.symm⟩
  | _ => simp [Field.mapRefs] at h

theorem Field.Alike.array {items : Option Field} (h : (Field.array items extra).Alike f) :
    ∃ items', f = .array items' extra ∧
      items.map (Field.mapRefs RefNode.unaimed) = items'.map (Field.mapRefs RefNode.unaimed) := by
  unfold Field.Alike at h
  cases f with
  | array items' extra' =>
    simp only [Field.mapRefs, Field.mapRefsOfOption_eq, Field.array.injEq] at h
    exact ⟨items', by rw [h.2], h.1⟩
  | _ => simp [Field.mapRefs] at h

theorem Field.Alike.map {additional : Field} (h : (Field.map additional extra).Alike f) :
    ∃ additional', f = .map additional' extra ∧ additional.Alike additional' := by
  unfold Field.Alike at h
  cases f with
  | map additional' extra' =>
    simp only [Field.mapRefs, Field.map.injEq] at h
    exact ⟨additional', by rw [h.2], h.1⟩
  | _ => simp [Field.mapRefs] at h

theorem Field.Alike.schema {node : Node} (h : (Field.schema node).Alike f) :
    ∃ node', f = .schema node' ∧ node.Alike node' := by
  unfold Field.Alike at h
  cases f with
  | schema node' =>
    simp only [Field.mapRefs, Field.schema.injEq] at h
    exact ⟨node', rfl, h⟩
  | _ => simp [Field.mapRefs] at h

theorem Field.Alike.primitive (h : (Field.primitive extra).Alike f) : f = .primitive extra := by
  unfold Field.Alike at h
  cases f with
  | primitive extra' =>
    simp only [Field.mapRefs, Field.primitive.injEq] at h
    rw [h]
  | _ => simp [Field.mapRefs] at h

theorem Field.Alike.plain {value : Json} (h : (Field.plain value).Alike f) :
    f = .plain value := by
  unfold Field.Alike at h
  cases f with
  | plain value' =>
    simp only [Field.mapRefs, Field.plain.injEq] at h
    rw [h]
  | _ => simp [Field.mapRefs] at h

end Inversion

/-! ## Values that are read again -/

/-- Whatever the references of a schema that is read of a value are made to point at, it is read
again with every reference read anew. -/
structure Rereads (layout : Layout) (value : Json) : Prop where
  node : ∀ {b : Node}, (Node.ofJson layout value).Alike b →
    Node.ofJson layout b.toJson = b.mapRefs (RefNode.reread layout)
  field : ∀ {f : Field}, (Field.ofJson layout value).Alike f →
    Field.ofJson layout f.toJson = f.mapRefs (RefNode.reread layout)

/-- The same name, and a field with every reference read anew. -/
def rereadEntry (layout : Layout) (entry : String × Field) : String × Field :=
  (entry.1, entry.2.mapRefs (RefNode.reread layout))

section Readers

variable {layout : Layout}

theorem Rereads.nodes {values : List Json} (inside : ∀ value ∈ values, Rereads layout value)
    {nodes : List Node} (alike : (values.map (Node.ofJson layout)).map (Node.mapRefs RefNode.unaimed)
      = nodes.map (Node.mapRefs RefNode.unaimed)) :
    (nodes.map Node.toJson).map (Node.ofJson layout)
      = nodes.map (Node.mapRefs (RefNode.reread layout)) := by
  induction values generalizing nodes with
  | nil =>
    obtain rfl : nodes = [] := List.map_eq_nil_iff.1 alike.symm
    rfl
  | cons value rest ih =>
    obtain ⟨first, inside⟩ := List.forall_mem_cons.1 inside
    obtain ⟨node, nodes, rfl, here, later⟩ := List.map_eq_cons_iff.1 alike.symm
    rw [List.map_cons, List.map_cons, List.map_cons, first.node here.symm, ih inside later.symm]

theorem Rereads.fields {values : List Json} (inside : ∀ value ∈ values, Rereads layout value)
    {fields : List Field} (alike : (Field.listOfJson layout values).map
      (Field.mapRefs RefNode.unaimed) = fields.map (Field.mapRefs RefNode.unaimed)) :
    Field.listOfJson layout (Field.listToJson fields)
      = fields.map (Field.mapRefs (RefNode.reread layout)) := by
  induction values generalizing fields with
  | nil =>
    obtain rfl : fields = [] := List.map_eq_nil_iff.1 alike.symm
    rfl
  | cons value rest ih =>
    obtain ⟨first, inside⟩ := List.forall_mem_cons.1 inside
    obtain ⟨field, fields, rfl, here, later⟩ := List.map_eq_cons_iff.1 alike.symm
    rw [Field.listToJson, Field.listOfJson, first.field here.symm, ih inside later.symm,
      List.map_cons]

theorem Rereads.entries {members : Members} (inside : ∀ entry ∈ members, Rereads layout entry.2)
    {fields : List (String × Field)}
    (alike : (Field.entriesOfJson layout members).map unaimedEntry = fields.map unaimedEntry) :
    Field.entriesOfJson layout (Field.entriesToJson fields)
      = fields.map (rereadEntry layout) := by
  induction members generalizing fields with
  | nil =>
    obtain rfl : fields = [] := List.map_eq_nil_iff.1 alike.symm
    rfl
  | cons entry rest ih =>
    obtain ⟨first, inside⟩ := List.forall_mem_cons.1 inside
    obtain ⟨⟨name, field⟩, fields, rfl, here, later⟩ := List.map_eq_cons_iff.1 alike.symm
    obtain ⟨rfl, here⟩ := Prod.mk.inj here
    rw [Field.entriesToJson, Field.entriesOfJson, first.field here.symm, ih inside later.symm,
      List.map_cons, rereadEntry]

/-! ### Objects stay objects -/

theorem Node.isObj_toJson_mapRefs (f : RefNode → RefNode) (node : Node) :
    (node.mapRefs f).toJson.isObj = node.toJson.isObj := by
  cases node <;> rfl

theorem Field.isObj_toJson_mapRefs (f : RefNode → RefNode) (field : Field) :
    (field.mapRefs f).toJson.isObj = field.toJson.isObj := by
  cases field with
  | schema node => exact node.isObj_toJson_mapRefs f
  | _ => rfl

theorem Node.isObj_toJson_ofParts (members : Members) (parts : Parts) :
    (Node.ofParts layout members parts).toJson.isObj = true := by
  unfold Node.ofParts
  split
  · rfl
  · unfold Node.ofMembers
    split <;> rfl
  · split <;> rfl

theorem Field.isObj_toJson_ofParts (members : Members) (parts : Parts) :
    (Field.ofParts layout members parts).toJson.isObj = true := by
  unfold Field.ofParts
  split
  · rfl
  · split
    · exact Node.isObj_toJson_ofParts members parts
    · split
      · rfl
      · split <;> rfl

theorem Field.exists_obj_of_alike {members : Members} {f : Field}
    (alike : (Field.ofJson layout (.obj members)).Alike f) :
    ∃ members', f.toJson = .obj members' := by
  have isObj : f.toJson.isObj = true := by
    rw [← f.isObj_toJson_mapRefs RefNode.unaimed, ← alike, Field.isObj_toJson_mapRefs, Field.ofJson,
      Field.isObj_toJson_ofParts]
  cases written : f.toJson with
  | obj members' => exact ⟨members', rfl⟩
  | _ =>
    rw [written] at isObj
    cases isObj

/-! ### Readers -/

/-- What is found where a part was written, if the part is like the one that was read before. -/
theorem bind_or_of_again {α β : Type} {read : Json → Option α} {form : α → β} {anew : α → α}
    {found : Option Json} {part : Option α} (write : α → Json)
    (alike : (found.bind read).map form = part.map form)
    (again : ∀ value ∈ found, ∀ a b, read value = some a → form a = form b →
      read (write b) = some (anew b)) :
    ((part.map write).or found).bind read = part.map anew := by
  cases part with
  | none =>
    rw [Option.map_none, Option.map_eq_none_iff] at alike
    exact alike
  | some b =>
    obtain ⟨a, present, same⟩ := Option.map_eq_some_iff.1 alike
    obtain ⟨value, there, here⟩ := Option.bind_eq_some_iff.1 present
    exact again value there a b here same

variable {value : Json}

theorem again_anyField (here : Rereads layout value) (a b : Field)
    (read : value.anyField? layout = some a)
    (alike : a.mapRefs RefNode.unaimed = b.mapRefs RefNode.unaimed) :
    b.toJson.anyField? layout = some (b.mapRefs (RefNode.reread layout)) := by
  obtain rfl := Option.some.inj read
  exact congrArg some (here.field alike)

theorem again_field (here : Rereads layout value) (a b : Field)
    (read : value.field? layout = some a)
    (alike : a.mapRefs RefNode.unaimed = b.mapRefs RefNode.unaimed) :
    b.toJson.field? layout = some (b.mapRefs (RefNode.reread layout)) := by
  cases value with
  | obj members =>
    obtain rfl := Option.some.inj read
    obtain ⟨members', written⟩ := Field.exists_obj_of_alike alike
    rw [← here.field alike, written]
    rfl
  | _ => cases read

theorem again_fields (inside : ∀ w ∈ value.children, Rereads layout w) (as bs : List Field)
    (read : value.fields? layout = some as)
    (alike : as.map (Field.mapRefs RefNode.unaimed) = bs.map (Field.mapRefs RefNode.unaimed)) :
    (Json.arr (Field.listToJson bs)).fields? layout
      = some (bs.map (Field.mapRefs (RefNode.reread layout))) := by
  cases value with
  | arr values =>
    obtain rfl := Option.some.inj read
    exact congrArg some (Rereads.fields inside alike)
  | _ => cases read

theorem again_named (inside : ∀ w ∈ value.children, Rereads layout w)
    (as bs : List (String × Field)) (read : value.named? layout = some as)
    (alike : as.map unaimedEntry = bs.map unaimedEntry) :
    (Json.obj (Field.entriesToJson bs)).named? layout = some (bs.map (rereadEntry layout)) := by
  cases value with
  | obj members =>
    obtain rfl := Option.some.inj read
    refine congrArg some (Rereads.entries (fun entry member => ?_) alike)
    exact inside entry.2 (List.mem_map_of_mem member)
  | _ => cases read

end Readers

/-! ## Objects -/

theorem Entries.without_eq_foldl {α : Type} (taken entries : Entries α) :
    without taken entries = (keys taken).foldl (fun entries key => erase key entries) entries := by
  rw [without, keys, List.foldl_map]

/-- What is taken out does not depend on values. -/
theorem Entries.without_congr {α : Type} {taken taken' : Entries α} (h : keys taken = keys taken')
    (entries : Entries α) : without taken entries = without taken' entries := by
  rw [without_eq_foldl, without_eq_foldl, h]

theorem keys_optionalMember_congr {α : Type} {a b : Option α} (h : a.isSome = b.isSome)
    (key : String) (write : α → Json) :
    Entries.keys (optionalMember key (a.map write))
      = Entries.keys (optionalMember key (b.map write)) := by
  cases a <;> cases b <;> first | rfl | cases h

theorem isSome_eq_of_map_eq {α β : Type} {form : α → β} {a b : Option α}
    (alike : a.map form = b.map form) : a.isSome = b.isSome := by
  simpa using congrArg Option.isSome alike

/-- What a definition with changed references is written as. -/
structure NodeRereads (layout : Layout) (members : Members) (b : Node) (written : Members) :
    Prop where
  distinct : written.Distinct
  toJson : b.toJson = .obj written
  again : Node.ofParts layout written (Parts.found layout written)
    = b.mapRefs (RefNode.reread layout)
  isReference : (Parts.found layout written).reference.isSome
    = (Parts.found layout members).reference.isSome
  isInlineSchema : (Parts.found layout written).isInlineSchema
    = (Parts.found layout members).isInlineSchema

/-- What a field with changed references is written as. -/
structure FieldRereads (layout : Layout) (f : Field) (written : Members) : Prop where
  distinct : written.Distinct
  toJson : f.toJson = .obj written
  again : Field.ofParts layout written (Parts.found layout written)
    = f.mapRefs (RefNode.reread layout)

/-! ### Compositions -/

namespace Node

theorem isRef_mapRefs (f : RefNode → RefNode) (node : Node) :
    (node.mapRefs f).isRef = node.isRef := by
  cases node <;> rfl

theorem ref?_mapRefs (f : RefNode → RefNode) (node : Node) :
    (node.mapRefs f).ref? = node.ref?.map f := by
  cases node <;> rfl

/-- A composition has the references of its members. -/
theorem mapRefs_ofMembers (f : RefNode → RefNode) (nodes : List Node) (extra : Members) :
    (ofMembers nodes extra).mapRefs f = ofMembers (nodes.map (mapRefs f)) extra := by
  rcases eq_of_middle nodes with rfl | ⟨node, rfl⟩ | ⟨first, middle, last, rfl⟩
  · rfl
  · rfl
  · have image : (first :: (middle ++ [last])).map (mapRefs f)
        = first.mapRefs f :: (middle.map (mapRefs f) ++ [last.mapRefs f]) := by
      simp
    have refs : (middle.map (mapRefs f)).filterMap ref? = (middle.filterMap ref?).map f := by
      rw [List.filterMap_map, List.map_filterMap]
      exact List.filterMap_congr fun node _ => ref?_mapRefs f node
    have others : (middle.map (mapRefs f)).filter (!isRef ·)
        = (middle.filter (!isRef ·)).map (mapRefs f) := by
      rw [List.filter_map]
      exact congrArg (List.map (mapRefs f))
        (List.filter_congr fun node _ => congrArg (!·) (isRef_mapRefs f node))
    rw [image, ofMembers_append, ofMembers_append, refs, others]
    simp [mapRefs]

theorem map_ref_ref? (nodes : List Node) :
    (nodes.filterMap ref?).map Node.ref = nodes.filter isRef := by
  induction nodes with
  | nil => rfl
  | cons node rest ih =>
    cases node with
    | ref r => exact congrArg (Node.ref r :: ·) ih
    | _ => exact ih

theorem map_mapRefs_ref (f : RefNode → RefNode) (refs : List RefNode) :
    (refs.map Node.ref).map (mapRefs f) = (refs.map f).map Node.ref := by
  simp [mapRefs, Function.comp_def]

/-- A composition that is like one that was read has members that are like those that were read, in
the order in which they are written. -/
theorem exists_members_of_alike {nodes : List Node} {extra : Members} {b : Node}
    (alike : (ofMembers nodes extra).Alike b) :
    ∃ nodes', b = ofMembers nodes' extra ∧
      b.toJson = .obj (extra ++ [("allOf", .arr (nodes'.map toJson))]) ∧
      (middleSorted isRef nodes).map (mapRefs RefNode.unaimed)
        = nodes'.map (mapRefs RefNode.unaimed) := by
  rcases eq_of_middle nodes with rfl | ⟨node, rfl⟩ | ⟨first, middle, last, rfl⟩
  · obtain ⟨parent, child, interfaces, inline, rfl, hp, hc, hi, hm⟩ := Node.Alike.composed alike
    obtain rfl := Option.map_eq_none_iff.1 hp.symm
    obtain rfl := Option.map_eq_none_iff.1 hc.symm
    obtain rfl := List.map_eq_nil_iff.1 hi.symm
    obtain rfl := List.map_eq_nil_iff.1 hm.symm
    exact ⟨[], rfl, rfl, rfl⟩
  · obtain ⟨parent, child, interfaces, inline, rfl, hp, hc, hi, hm⟩ := Node.Alike.composed alike
    obtain ⟨node', rfl, same⟩ := Option.map_eq_some_iff.1 hp.symm
    obtain rfl := Option.map_eq_none_iff.1 hc.symm
    obtain rfl := List.map_eq_nil_iff.1 hi.symm
    obtain rfl := List.map_eq_nil_iff.1 hm.symm
    exact ⟨[node'], rfl, rfl, congrArg (fun node => [node]) same.symm⟩
  · rw [ofMembers_append] at alike
    obtain ⟨parent, child, interfaces, inline, rfl, hp, hc, hi, hm⟩ := alike.composed
    obtain ⟨first', rfl, sameFirst⟩ := Option.map_eq_some_iff.1 hp.symm
    obtain ⟨last', rfl, sameLast⟩ := Option.map_eq_some_iff.1 hc.symm
    have noRef : ∀ node ∈ inline, node.isRef = false := by
      intro node member
      have image := hm ▸ List.mem_map_of_mem (f := mapRefs RefNode.unaimed) member
      obtain ⟨node', member', same⟩ := List.mem_map.1 image
      rw [← isRef_mapRefs RefNode.unaimed, ← same, isRef_mapRefs]
      simpa using (List.mem_filter.1 member').2
    refine ⟨first' :: ((interfaces.map .ref ++ inline) ++ [last']), ?_, ?_, ?_⟩
    · have refs : (interfaces.map Node.ref ++ inline).filterMap ref? = interfaces := by
        rw [List.filterMap_append, List.filterMap_map]
        have none : inline.filterMap ref? = [] := by
          rw [List.filterMap_eq_nil_iff]
          intro node member
          simpa [isRef] using noRef node member
        rw [none, List.append_nil]
        exact List.filterMap_some
      have others : (interfaces.map Node.ref ++ inline).filter (!isRef ·) = inline := by
        rw [List.filter_append, List.filter_eq_nil_iff.2 (by simp [isRef, ref?]), List.nil_append,
          List.filter_eq_self]
        intro node member
        rw [noRef node member]
        rfl
      rw [ofMembers_append, refs, others]
    · simp [toJson, optionToJson, listToJson_eq_map]
    · have refs : (middle.filter isRef).map (mapRefs RefNode.unaimed)
          = (interfaces.map Node.ref).map (mapRefs RefNode.unaimed) := by
        rw [← map_ref_ref?, map_mapRefs_ref, map_mapRefs_ref, hi]
      rw [middleSorted_cons_append]
      simp only [List.cons_append, List.map_cons, List.map_append, List.map_nil, refs, hm,
        sameFirst, sameLast]

end Node

section Objects

variable {layout : Layout} {members : Members}

/-- A reference that points elsewhere. -/
theorem found_reference (text : String) (members : Members) :
    Parts.found layout (("$ref", .str text) :: Entries.erase "$ref" members)
      = { Parts.found layout members with reference := some text } := by
  have others (key : String) (ne : "$ref" ≠ key) :
      Entries.find? key (("$ref", .str text) :: Entries.erase "$ref" members)
        = Entries.find? key members := by
    rw [Entries.find?, if_neg ne, Entries.find?_erase_of_ne ne]
  simp only [Parts.found, others _ (by decide : "$ref" ≠ "allOf"),
    others _ (by decide : "$ref" ≠ "items"), others _ (by decide : "$ref" ≠ "properties"),
    others _ (by decide : "$ref" ≠ "additionalProperties"), others _ (by decide : "$ref" ≠ "oneOf"),
    others _ (by decide : "$ref" ≠ "anyOf"), others _ (by decide : "$ref" ≠ "not")]
  rfl

variable (distinct : members.Distinct)

include distinct

theorem distinct_reference (text : String) : Entries.Distinct
    (("$ref", Json.str text) :: Entries.erase "$ref" members) := by
  refine List.nodup_cons.2 ⟨?_, Entries.distinct_erase distinct "$ref"⟩
  exact Entries.find?_eq_none_iff.1 (Entries.find?_erase_self distinct "$ref")

theorem nodeRereads_reference {text : String} {b : Node}
    (reference : (Parts.found layout members).reference = some text)
    (alike : (Node.ofJson layout (.obj members)).Alike b) :
    ∃ written, NodeRereads layout members b written := by
  rw [Node.ofJson_obj distinct, Node.ofParts, reference] at alike
  obtain ⟨r, rfl, extra⟩ := alike.ref
  refine ⟨("$ref", .str r.reference) :: Entries.erase "$ref" members, ?_⟩
  refine ⟨distinct_reference distinct _, ?_, ?_, ?_, ?_⟩
  · rw [Node.toJson, RefNode.toJson, extra]
    rfl
  · rw [found_reference, Node.ofParts]
    dsimp only
    rw [Node.mapRefs, RefNode.reread, extra, Entries.erase, if_pos rfl]
    rfl
  · rw [found_reference, reference]
    rfl
  · rw [found_reference]
    rfl

theorem fieldRereads_reference {text : String} {f : Field}
    (reference : (Parts.found layout members).reference = some text)
    (alike : (Field.ofJson layout (.obj members)).Alike f) :
    ∃ written, FieldRereads layout f written := by
  rw [Field.ofJson_obj distinct, Field.ofParts, reference] at alike
  obtain ⟨r, rfl, extra⟩ := alike.ref
  refine ⟨("$ref", .str r.reference) :: Entries.erase "$ref" members, ?_⟩
  refine ⟨distinct_reference distinct _, ?_, ?_⟩
  · rw [Field.toJson, RefNode.toJson, extra]
    rfl
  · rw [found_reference, Field.ofParts]
    dsimp only
    rw [Field.mapRefs, RefNode.reread, extra, Entries.erase, if_pos rfl]
    rfl

variable (inside : ∀ key value, Entries.find? key members = some value →
    Rereads layout value ∧ ∀ w ∈ value.children, Rereads layout w)

include inside

/-- Items that are like those that were read are read again where they are written. -/
theorem found_items {items : Option Field}
    (alike : (Parts.found layout members).items.map (Field.mapRefs RefNode.unaimed)
      = items.map (Field.mapRefs RefNode.unaimed)) :
    Parts.found layout
        (Entries.moved (optionalMember "items" (items.map Field.toJson)) members)
      = { Parts.found layout members with
          items := items.map (Field.mapRefs (RefNode.reread layout)) } := by
  have again := bind_or_of_again Field.toJson alike fun value present =>
    again_anyField (inside _ value present).1
  simp only [Parts.found, Entries.find?_moved _ distinct, find?_optionalMember, String.reduceEq,
    if_true, if_false, Option.none_or]
  exact congrArg (fun items => { Parts.found layout members with items }) again

omit distinct inside in
/-- What the members are besides the items does not depend on what the items are. -/
theorem without_items {items : Option Field}
    (alike : (Parts.found layout members).items.map (Field.mapRefs RefNode.unaimed)
      = items.map (Field.mapRefs RefNode.unaimed)) (entries : Members) :
    Entries.without (Parts.found layout members).itemsMember entries
      = Entries.without (optionalMember "items" (items.map Field.toJson)) entries :=
  Entries.without_congr (keys_optionalMember_congr (isSome_eq_of_map_eq alike) ..) entries

omit distinct inside in
theorem isArraySchema_congr {written : Members}
    (type : Entries.find? "type" written = Entries.find? "type" members)
    (items : (Parts.found layout written).items.isSome = (Parts.found layout members).items.isSome) :
    isArraySchema written = isArraySchema members := by
  unfold isArraySchema
  rw [contains_items layout, contains_items layout, items, type]

omit inside in
theorem find?_type_moved {taken : Members} {kind : SchemaKind}
    (keys : (Entries.keys taken).Sublist kind.keys) :
    Entries.find? "type" (Entries.moved taken members) = Entries.find? "type" members := by
  have noType : "type" ∉ kind.keys := by cases kind <;> decide
  have absent := Entries.find?_eq_none_iff.2 fun member => noType (keys.subset member)
  rw [Entries.find?_moved taken distinct, absent, Option.none_or]

/-- The members of an array whose items have changed references. -/
structure ArrayRereads (layout : Layout) (members : Members) (items : Option Field)
    (written : Members) : Prop where
  distinct : written.Distinct
  put : Entries.erase "items" members ++ optionalMember "items" (Field.optionToJson items)
    = written
  found : Parts.found layout written = { Parts.found layout members with
    items := items.map (Field.mapRefs (RefNode.reread layout)) }
  isArraySchema : isArraySchema written = isArraySchema members
  extra : Entries.erase "items" written = Entries.erase "items" members

theorem exists_arrayRereads {items : Option Field}
    (alike : (Parts.found layout members).items.map (Field.mapRefs RefNode.unaimed)
      = items.map (Field.mapRefs RefNode.unaimed)) :
    ∃ written, ArrayRereads layout members items written := by
  have found := found_items distinct inside alike
  have keys : (Entries.keys (optionalMember "items" (items.map Field.toJson))).Sublist
      SchemaKind.array.keys := keys_optionalMember_sublist ..
  refine ⟨Entries.moved (optionalMember "items" (items.map Field.toJson)) members, ?_, ?_, found,
    ?_, ?_⟩
  · exact Entries.distinct_moved distinct (SchemaKind.array.nodup_keys.sublist keys)
  · rw [@erase_items layout, without_items alike, Field.optionToJson_eq_map]
    rfl
  · refine @isArraySchema_congr layout _ _ (find?_type_moved distinct keys) ?_
    rw [found]
    exact Option.isSome_map.trans (isSome_eq_of_map_eq alike).symm
  · have keys' : Entries.keys (optionalMember "items"
          ((items.map (Field.mapRefs (RefNode.reread layout))).map Field.toJson))
        = Entries.keys (optionalMember "items" (items.map Field.toJson)) :=
      keys_optionalMember_congr Option.isSome_map ..
    rw [@erase_items layout, @erase_items layout, without_items alike, found,
      Parts.itemsMember, Entries.without_congr keys', Entries.without_moved _ distinct]

theorem nodeRereads_array {b : Node} (reference : (Parts.found layout members).reference = none)
    (allOf : (Parts.found layout members).allOf = none) (array : isArraySchema members = true)
    (alike : (Node.ofJson layout (.obj members)).Alike b) :
    ∃ written, NodeRereads layout members b written := by
  rw [Node.ofJson_obj distinct, Node.ofParts, reference, allOf] at alike
  simp only [array, if_true] at alike
  obtain ⟨items, rfl, same⟩ := alike.array
  obtain ⟨written, rereads⟩ := exists_arrayRereads distinct inside same
  refine ⟨written, rereads.distinct, ?_, ?_, ?_, ?_⟩
  · rw [Node.toJson, rereads.put]
  · rw [rereads.found, Node.ofParts, reference, allOf]
    simp only [rereads.isArraySchema, array, if_true, rereads.extra, Node.mapRefs,
      Field.mapRefsOfOption_eq]
  · rw [rereads.found]
  · rw [rereads.found]
    rfl

theorem fieldRereads_array {f : Field} (reference : (Parts.found layout members).reference = none)
    (inline : (Parts.found layout members).isInlineSchema = false)
    (array : isArraySchema members = true)
    (alike : (Field.ofJson layout (.obj members)).Alike f) :
    ∃ written, FieldRereads layout f written := by
  rw [Field.ofJson_obj distinct, Field.ofParts, reference] at alike
  simp only [inline, array, Bool.false_eq_true, if_false, if_true] at alike
  obtain ⟨items, rfl, same⟩ := alike.array
  obtain ⟨written, rereads⟩ := exists_arrayRereads distinct inside same
  have inline' : (Parts.found layout written).isInlineSchema = false := by
    rw [rereads.found]
    exact inline
  have reference' : (Parts.found layout written).reference = none := by
    rw [rereads.found, reference]
  refine ⟨written, rereads.distinct, ?_, ?_⟩
  · rw [Field.toJson, rereads.put]
  · rw [Field.ofParts, reference']
    simp only [inline', rereads.isArraySchema, array, Bool.false_eq_true, if_false, if_true,
      rereads.extra, Field.mapRefs, Field.mapRefsOfOption_eq]
    rw [rereads.found]

/-- Values of a dictionary that are like those that were read are read again where they are
written. -/
theorem found_additional {additional : Option Field}
    (alike : (Parts.found layout members).additional.map (Field.mapRefs RefNode.unaimed)
      = additional.map (Field.mapRefs RefNode.unaimed)) :
    Parts.found layout (Entries.moved
        (optionalMember "additionalProperties" (additional.map Field.toJson)) members)
      = { Parts.found layout members with
          additional := additional.map (Field.mapRefs (RefNode.reread layout)) } := by
  have again := bind_or_of_again Field.toJson alike fun value present =>
    again_field (inside _ value present).1
  simp only [Parts.found, Entries.find?_moved _ distinct, find?_optionalMember, String.reduceEq,
    if_true, if_false, Option.none_or]
  exact congrArg (fun additional => { Parts.found layout members with additional }) again

theorem fieldRereads_dictionary {additional : Field} {f : Field}
    (reference : (Parts.found layout members).reference = none)
    (inline : (Parts.found layout members).isInlineSchema = false)
    (array : isArraySchema members = false)
    (present : (Parts.found layout members).additional = some additional)
    (alike : (Field.ofJson layout (.obj members)).Alike f) :
    ∃ written, FieldRereads layout f written := by
  rw [Field.ofJson_obj distinct, Field.ofParts, reference] at alike
  simp only [inline, array, present, Bool.false_eq_true, if_false] at alike
  obtain ⟨additional', rfl, same⟩ := alike.map
  have found : Parts.found layout (Entries.moved
        (optionalMember "additionalProperties" (some additional'.toJson)) members)
      = { Parts.found layout members with
          additional := some (additional'.mapRefs (RefNode.reread layout)) } :=
    @found_additional layout members distinct inside (some additional')
      (by rw [present]; exact congrArg some same)
  have keys := keys_optionalMember_sublist "additionalProperties" (some additional'.toJson)
  have array' := @isArraySchema_congr layout members _
    (@find?_type_moved members distinct _ .dictionary keys) (by rw [found])
  have extra := Entries.without_moved
    (optionalMember "additionalProperties" (some additional'.toJson)) distinct
  refine ⟨_, Entries.distinct_moved distinct (SchemaKind.dictionary.nodup_keys.sublist keys), ?_,
    ?_⟩
  · rw [Field.toJson]
    rfl
  · have inline' : Parts.isInlineSchema { Parts.found layout members with
        additional := some (additional'.mapRefs (RefNode.reread layout)) } = false := inline
    rw [found, Field.ofParts, reference]
    simp only [inline', array', array, Bool.false_eq_true, if_false]
    exact congrArg (Field.map _) extra

omit inside in
theorem fieldRereads_scalar {f : Field}
    (reference : (Parts.found layout members).reference = none)
    (inline : (Parts.found layout members).isInlineSchema = false)
    (array : isArraySchema members = false)
    (additional : (Parts.found layout members).additional = none)
    (alike : (Field.ofJson layout (.obj members)).Alike f) :
    ∃ written, FieldRereads layout f written := by
  rw [Field.ofJson_obj distinct, Field.ofParts, reference] at alike
  simp only [inline, array, additional, Bool.false_eq_true, if_false] at alike
  obtain rfl := alike.primitive
  refine ⟨members, distinct, rfl, ?_⟩
  rw [Field.ofParts, reference]
  simp only [inline, array, additional, Bool.false_eq_true, if_false]
  rfl

/-- The same parts of an object are there. -/
structure Parts.SameShape (parts parts' : Parts) : Prop where
  properties : parts.properties.isSome = parts'.properties.isSome
  additional : parts.additional.isSome = parts'.additional.isSome
  oneOf : parts.oneOf.isSome = parts'.oneOf.isSome
  anyOf : parts.anyOf.isSome = parts'.anyOf.isSome
  negated : parts.negated.isSome = parts'.negated.isSome

omit distinct inside in
theorem Parts.SameShape.without_eq {parts parts' : Parts} (h : parts.SameShape parts')
    (entries : Members) :
    Entries.without parts.objectMembers entries = Entries.without parts'.objectMembers entries := by
  refine Entries.without_congr ?_ entries
  simp only [Parts.objectMembers, Parts.additionalMember, Entries.keys_append]
  rw [keys_optionalMember_congr h.properties, keys_optionalMember_congr h.additional,
    keys_optionalMember_congr h.oneOf, keys_optionalMember_congr h.anyOf,
    keys_optionalMember_congr h.negated]

/-- The parts of an object are like those that were read. -/
structure Parts.Alike (parts parts' : Parts) : Prop where
  properties : parts.properties.map (List.map unaimedEntry)
    = parts'.properties.map (List.map unaimedEntry)
  additional : parts.additional.map (Field.mapRefs RefNode.unaimed)
    = parts'.additional.map (Field.mapRefs RefNode.unaimed)
  oneOf : parts.oneOf.map (List.map (Field.mapRefs RefNode.unaimed))
    = parts'.oneOf.map (List.map (Field.mapRefs RefNode.unaimed))
  anyOf : parts.anyOf.map (List.map (Field.mapRefs RefNode.unaimed))
    = parts'.anyOf.map (List.map (Field.mapRefs RefNode.unaimed))
  negated : parts.negated.map (Field.mapRefs RefNode.unaimed)
    = parts'.negated.map (Field.mapRefs RefNode.unaimed)

omit distinct inside in
theorem Parts.Alike.sameShape {parts parts' : Parts} (h : parts.Alike parts') :
    parts.SameShape parts' :=
  ⟨isSome_eq_of_map_eq h.properties, isSome_eq_of_map_eq h.additional,
    isSome_eq_of_map_eq h.oneOf, isSome_eq_of_map_eq h.anyOf, isSome_eq_of_map_eq h.negated⟩

/-- The parts of an object with every reference read anew. -/
def Parts.anew (layout : Layout) (parts : Parts) : Parts :=
  { parts with
    properties := parts.properties.map (List.map (rereadEntry layout))
    additional := parts.additional.map (Field.mapRefs (RefNode.reread layout))
    oneOf := parts.oneOf.map (List.map (Field.mapRefs (RefNode.reread layout)))
    anyOf := parts.anyOf.map (List.map (Field.mapRefs (RefNode.reread layout)))
    negated := parts.negated.map (Field.mapRefs (RefNode.reread layout)) }

omit distinct inside in
theorem Parts.sameShape_anew (layout : Layout) (parts : Parts) :
    (parts.anew layout).SameShape parts :=
  ⟨Option.isSome_map, Option.isSome_map, Option.isSome_map, Option.isSome_map, Option.isSome_map⟩

theorem found_object {parts : Parts} (alike : (Parts.found layout members).Alike parts)
    (reference : parts.reference = (Parts.found layout members).reference)
    (allOf : parts.allOf = (Parts.found layout members).allOf)
    (items : parts.items = (Parts.found layout members).items) :
    Parts.found layout (Entries.moved parts.objectMembers members) = parts.anew layout := by
  have properties := bind_or_of_again (fun fields => .obj (Field.entriesToJson fields))
    alike.properties fun value present => again_named (inside _ value present).2
  have additional := bind_or_of_again Field.toJson alike.additional fun value present =>
    again_field (inside _ value present).1
  have oneOf := bind_or_of_again (fun fields => .arr (Field.listToJson fields)) alike.oneOf
    fun value present => again_fields (inside _ value present).2
  have anyOf := bind_or_of_again (fun fields => .arr (Field.listToJson fields)) alike.anyOf
    fun value present => again_fields (inside _ value present).2
  have negated := bind_or_of_again Field.toJson alike.negated fun value present =>
    again_field (inside _ value present).1
  simp only [Parts.anew, reference, allOf, items]
  simp only [Parts.found, Parts.objectMembers, Parts.additionalMember, Entries.find?_append,
    Entries.find?_moved _ distinct, find?_optionalMember, String.reduceEq, if_true, if_false,
    Option.none_or, Option.or_none]
  rw [properties, additional, oneOf, anyOf, negated]

theorem nodeRereads_object {b : Node} (reference : (Parts.found layout members).reference = none)
    (allOf : (Parts.found layout members).allOf = none) (array : isArraySchema members = false)
    (alike : (Node.ofJson layout (.obj members)).Alike b) :
    ∃ written, NodeRereads layout members b written := by
  rw [Node.ofJson_obj distinct, Node.ofParts, reference, allOf] at alike
  simp only [array, Bool.false_eq_true, if_false] at alike
  rw [← without_objectMembers] at alike
  obtain ⟨properties, additional, oneOf, anyOf, negated, rfl, hp, ha, ho, hy, hn⟩ := alike.object
  let parts : Parts :=
    { Parts.found layout members with properties, additional, oneOf, anyOf, negated }
  have same : (Parts.found layout members).Alike parts := ⟨hp, ha, ho, hy, hn⟩
  have found := found_object distinct inside same rfl rfl rfl
  have keys := parts.keys_objectMembers_sublist
  have shape := parts.sameShape_anew layout
  have array' := @isArraySchema_congr layout members _
    (@find?_type_moved members distinct _ .object keys) (by rw [found]; rfl)
  have extra : Entries.without (parts.anew layout).objectMembers
        (Entries.moved parts.objectMembers members)
      = Entries.without (Parts.found layout members).objectMembers members := by
    rw [shape.without_eq, Entries.without_moved _ distinct, same.sameShape.without_eq]
  refine ⟨Entries.moved parts.objectMembers members,
    Entries.distinct_moved distinct (SchemaKind.object.nodup_keys.sublist keys), ?_, ?_, ?_, ?_⟩
  · rw [same.sameShape.without_eq, Node.toJson, Field.optionToJson_eq_map,
      Field.optionToJson_eq_map, Field.optionListToJson_eq_map, Field.optionListToJson_eq_map,
      Field.namedToJson_eq_map]
    simp only [Entries.moved, Parts.objectMembers, Parts.additionalMember, List.append_assoc, parts]
  · have reference' : (parts.anew layout).reference = none := reference
    have allOf' : (parts.anew layout).allOf = none := allOf
    rw [found, Node.ofParts, reference', allOf']
    simp only [array', array, Bool.false_eq_true, if_false]
    rw [← without_objectMembers, extra, Node.mapRefs, Field.mapRefsOfNamed_eq,
      Field.mapRefsOfOption_eq, Field.mapRefsOfOption_eq, Field.mapRefsOfOptionList_eq,
      Field.mapRefsOfOptionList_eq]
    rfl
  · rw [found]
    rfl
  · have shape' := same.sameShape
    rw [found, Parts.isInlineSchema, Parts.isInlineSchema, shape.oneOf, shape.anyOf,
      shape.properties, shape.negated, shape'.oneOf, shape'.anyOf, shape'.properties,
      shape'.negated]
    rfl

theorem nodeRereads_composition {nodes : List Node} {b : Node}
    (reference : (Parts.found layout members).reference = none)
    (allOf : (Parts.found layout members).allOf = some nodes)
    (alike : (Node.ofJson layout (.obj members)).Alike b) :
    ∃ written, NodeRereads layout members b written := by
  obtain ⟨values, present, rfl⟩ := exists_arr_of_allOf allOf
  rw [Node.ofJson_obj distinct, Node.ofParts, reference, allOf] at alike
  obtain ⟨nodes, rfl, toJson, same⟩ := Node.exists_members_of_alike alike
  have sorted : middleSorted Node.isRef (values.map (Node.ofJson layout))
      = (middleSorted (fun value => (Node.ofJson layout value).isRef) values).map
        (Node.ofJson layout) :=
    (map_middleSorted fun _ _ => rfl).symm
  rw [sorted] at same
  have each : ∀ value ∈ middleSorted (fun value => (Node.ofJson layout value).isRef) values,
      Rereads layout value := fun value member =>
    (inside _ _ present).2 value ((perm_middleSorted _ values).subset member)
  have again := Rereads.nodes each same
  have keys : (Entries.keys [("allOf", Json.arr (nodes.map Node.toJson))]).Sublist
      SchemaKind.composition.keys := .refl _
  have found : Parts.found layout
        (Entries.moved [("allOf", .arr (nodes.map Node.toJson))] members)
      = { Parts.found layout members with
          allOf := some (nodes.map (Node.mapRefs (RefNode.reread layout))) } := by
    simp only [Parts.found, Entries.find?_moved _ distinct, Entries.find?, String.reduceEq, if_true,
      if_false, Option.none_or, Option.some_or, Option.bind_some, nodes?, Node.listOfJson_eq_map]
    rw [again]
  have extra := Entries.without_moved [("allOf", .arr (nodes.map Node.toJson))] distinct
  refine ⟨Entries.moved [("allOf", .arr (nodes.map Node.toJson))] members,
    Entries.distinct_moved distinct (SchemaKind.composition.nodup_keys.sublist keys), toJson, ?_,
    ?_, ?_⟩
  · rw [found, Node.ofParts, reference, Node.mapRefs_ofMembers]
    exact congrArg (Node.ofMembers _) extra
  · rw [found]
  · rw [found, Parts.isInlineSchema, Parts.isInlineSchema, allOf]
    rfl

/-- Whatever the members are, a definition like the one that is read of them is read again. -/
theorem exists_nodeRereads {b : Node} (alike : (Node.ofJson layout (.obj members)).Alike b) :
    ∃ written, NodeRereads layout members b written := by
  cases reference : (Parts.found layout members).reference with
  | some text => exact nodeRereads_reference distinct reference alike
  | none =>
    cases allOf : (Parts.found layout members).allOf with
    | some nodes => exact nodeRereads_composition distinct inside reference allOf alike
    | none =>
      cases array : isArraySchema members with
      | true => exact nodeRereads_array distinct inside reference allOf array alike
      | false => exact nodeRereads_object distinct inside reference allOf array alike

theorem fieldRereads_inline {f : Field}
    (reference : (Parts.found layout members).reference = none)
    (inline : (Parts.found layout members).isInlineSchema = true)
    (alike : (Field.ofJson layout (.obj members)).Alike f) :
    ∃ written, FieldRereads layout f written := by
  rw [Field.ofJson_obj distinct, Field.ofParts, reference] at alike
  simp only [inline, if_true] at alike
  obtain ⟨b, rfl, same⟩ := alike.schema
  rw [← Node.ofJson_obj distinct] at same
  obtain ⟨written, rereads⟩ := exists_nodeRereads distinct inside same
  have reference' : (Parts.found layout written).reference = none := by
    rw [← Option.not_isSome_iff_eq_none, rereads.isReference, reference]
    exact Bool.false_ne_true
  refine ⟨written, rereads.distinct, rereads.toJson, ?_⟩
  rw [Field.ofParts, reference', rereads.isInlineSchema, inline]
  exact congrArg Field.schema rereads.again

/-- Whatever the members are, a field like the one that is read of them is read again. -/
theorem exists_fieldRereads {f : Field} (alike : (Field.ofJson layout (.obj members)).Alike f) :
    ∃ written, FieldRereads layout f written := by
  cases reference : (Parts.found layout members).reference with
  | some text => exact fieldRereads_reference distinct reference alike
  | none =>
    cases inline : (Parts.found layout members).isInlineSchema with
    | true => exact fieldRereads_inline distinct inside reference inline alike
    | false =>
      cases array : isArraySchema members with
      | true => exact fieldRereads_array distinct inside reference inline array alike
      | false =>
        cases additional : (Parts.found layout members).additional with
        | some field =>
          exact fieldRereads_dictionary distinct inside reference inline array additional alike
        | none => exact fieldRereads_scalar distinct reference inline array additional alike

end Objects

/-! ## All values -/

section All

variable {layout : Layout}

theorem rereads_of_isObj_eq_false {value : Json} (flat : value.isObj = false) :
    Rereads layout value := by
  cases value with
  | obj members => cases flat
  | _ => exact ⟨fun alike => alike.plain ▸ rfl, fun alike => alike.plain ▸ rfl⟩

/-- A definition and a field like those that are read of an object are read again if everything
inside is. -/
theorem rereads_obj {members : Members} (distinct : members.Distinct)
    (inside : ∀ entry ∈ members, Rereads layout entry.2 ∧
      ∀ w ∈ entry.2.children, Rereads layout w) :
    Rereads layout (.obj members) := by
  have inside' : ∀ key value, Entries.find? key members = some value →
      Rereads layout value ∧ ∀ w ∈ value.children, Rereads layout w :=
    fun key value present => inside _ (Entries.mem_of_find? present)
  constructor
  · intro b alike
    obtain ⟨written, node⟩ := exists_nodeRereads distinct inside' alike
    rw [node.toJson, Node.ofJson_obj node.distinct, node.again]
  · intro f alike
    obtain ⟨written, field⟩ := exists_fieldRereads distinct inside' alike
    rw [field.toJson, Field.ofJson_obj field.distinct, field.again]

/-- All values, by induction on their size. -/
theorem rereads (value : Json) (wellFormed : value.WellFormed) : Rereads layout value := by
  induction size : sizeOf value using Nat.strong_induction_on generalizing value with
  | _ n ih =>
    subst size
    cases value with
    | obj members =>
      refine rereads_obj (wellFormed_obj_iff.1 wellFormed).1 fun entry member => ?_
      have child : entry.2 ∈ (Json.obj members).children := List.mem_map_of_mem member
      have small := sizeOf_of_mem_children child
      have wellFormed := wellFormed_of_mem_children wellFormed child
      refine ⟨ih _ small _ wellFormed rfl, fun w member => ?_⟩
      have smaller := sizeOf_of_mem_children member
      exact ih _ (smaller.trans small) w (wellFormed_of_mem_children wellFormed member) rfl
    | _ => exact rereads_of_isObj_eq_false rfl

/-- A schema that was read and whose references were changed is read again with every reference read
anew. -/
theorem ofJson_toJson_of_alike {value : Json} (wellFormed : value.WellFormed) {b : Node}
    (alike : (Node.ofJson layout value).Alike b) :
    Node.ofJson layout b.toJson = b.mapRefs (RefNode.reread layout) :=
  (rereads value wellFormed).node alike

end All

/-! ## References that are left alone -/

/-- A change leaves a part alone exactly if it leaves every reference of it alone. -/
theorem Part.mapRefs_eq_self_iff {f : RefNode → RefNode} {x : Part} :
    x.mapRefs f = x ↔ x.AllRefs (Function.IsFixedPt f) := by
  constructor
  · intro same place r found
    have image := refAt?_mapRefs f place x
    rw [same, found] at image
    exact (Option.some.inj image).symm
  · intro fixed
    induction x using Part.induction_below with
    | part x ih =>
      obtain ⟨here, inside⟩ := Part.allRefs_iff.1 fixed
      have reference : x.reference?.map f = x.reference? := by
        cases isReference : x.reference? with
        | none => rfl
        | some r => exact congrArg some (here r isReference)
      have below : x.below.map (mapRefs f) = x.below :=
        (List.map_congr_left fun y member => ih y member (inside y member)).trans (List.map_id _)
      apply Part.eq_of_below (hollow_mapRefs f x)
      · rw [reference?_mapRefs, reference]
      · rw [below_mapRefs, below]

/-- A change leaves a definition alone exactly if it leaves every reference of it alone. -/
theorem Node.mapRefs_eq_self_iff {f : RefNode → RefNode} {node : Node} :
    node.mapRefs f = node ↔ node.AllRefs (Function.IsFixedPt f) :=
  Node.part_injective.eq_iff.symm.trans (Part.mapRefs_eq_self_iff (x := node.part))

/-! ## Schemas that are read back -/

/-- The same reference is read of what is written of it. -/
def RefNode.IsReadBack (layout : Layout) (r : RefNode) : Prop :=
  r.reread layout = r

/-- **A schema is read back exactly if its references are**, whatever became of the references that
it was read with. -/
theorem readsBack_iff {layout : Layout} {value : Json} (wellFormed : value.WellFormed) {b : Node}
    (alike : (Node.ofJson layout value).Alike b) :
    Node.ofJson layout b.toJson = b ↔ b.AllRefs (RefNode.IsReadBack layout) := by
  rw [ofJson_toJson_of_alike wellFormed alike]
  exact Node.mapRefs_eq_self_iff

/-- What was read is read back. -/
theorem allRefs_isReadBack {layout : Layout} {value : Json} (wellFormed : value.WellFormed) :
    (Node.ofJson layout value).AllRefs (RefNode.IsReadBack layout) :=
  (readsBack_iff wellFormed rfl).1 (roundTrips value wellFormed).node

end SchemaBundle
