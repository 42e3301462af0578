import Mathlib.Data.List.Perm.Basic
import SchemaBundle.Proofs.Schema.Descent
import SchemaBundle.Proofs.Schema.Rereading

/-!
# Where the references of a written schema come from

Three traversals see the references of a schema: what is written of it (`Json.refs`), the walk
(`Node.stops`), and the list of those that are kept as they are (`Node.verbatimRefs`). Each goes
from a part to the parts below, so they are compared part by part: a part has its own reference, and
its `loose` ones, which stand in what is not interpreted of it. A map of fields on an array is
passed over by the last two (`Part.skipped`).

So what is written is what the walk comes to, what is kept, and what is passed over, each reference
once (`Part.refs_perm`). For this a part must not write a reference that it is not: none of its
members may be called `$ref`, nor any of its fields that is a text (`Part.IsClear`). The first never
happens in what is read (`Part.IsRead.unreferenced`).
-/

namespace SchemaBundle

/-! ## References in values -/

namespace Json

theorem refsInItems_eq_flatMap (items : List Json) : refsInItems items = items.flatMap refs := by
  induction items with
  | nil => rfl
  | cons value rest ih => rw [refsInItems, ih, List.flatMap_cons]

theorem refsInMembers_eq_flatMap (members : Members) :
    refsInMembers members = members.flatMap fun member => member.2.refs := by
  induction members with
  | nil => rfl
  | cons member rest ih => rw [refsInMembers, ih, List.flatMap_cons]

theorem refsInMembers_append (members more : Members) :
    refsInMembers (members ++ more) = refsInMembers members ++ refsInMembers more := by
  simp only [refsInMembers_eq_flatMap, List.flatMap_append]

/-- Members that are taken apart by their key hold the same references. -/
theorem refsInMembers_filter_perm (p : String × Json → Bool) (members : Members) :
    (refsInMembers members).Perm
      (refsInMembers (members.filter p) ++ refsInMembers (members.filter (!p ·))) := by
  simp only [refsInMembers_eq_flatMap]
  rw [← List.flatMap_append]
  exact (List.filter_append_perm p members).symm.flatMap_right _

end Json

/-- No member is a reference. -/
def Unreferenced (members : Members) : Prop :=
  ∀ text, ("$ref", Json.str text) ∉ members

theorem Unreferenced.sublist {members more : Members} (h : Unreferenced more)
    (part : members.Sublist more) : Unreferenced members :=
  fun text member => h text (part.subset member)

theorem Json.refs_obj {members : Members} (h : Unreferenced members) :
    (Json.obj members).refs = refsInMembers members := by
  rw [refs]
  split
  · rename_i text found
    exact absurd (Entries.mem_of_find? found) (h text)
  · rfl

/-- The text of the reference that a walk comes to. -/
def Stop.text? : Stop → Option String
  | .reference _ r => some r.reference
  | .tooDeep _ => none

/-! ## The references of a part -/

namespace Part

/-- The references of a part that are kept as they are. -/
def verbatimRefs : Part → List String
  | .schema (.node a) => a.verbatimRefs
  | .schema (.field a) => a.verbatimRefs
  | .reference r => Json.refsInMembers r.extra

/-- The text of the reference that a part is. -/
def text? (x : Part) : Option String :=
  x.reference?.map RefNode.reference

/-- The members of a schema that are not interpreted. -/
def extra : Part → Members
  | .schema (.node (.array _ extra)) => extra
  | .schema (.node (.composed _ _ _ _ extra)) => extra
  | .schema (.node (.object _ _ _ _ _ extra)) => extra
  | .schema (.field (.array _ extra)) => extra
  | .schema (.field (.map _ extra)) => extra
  | .schema (.field (.primitive extra)) => extra
  | _ => []

/-- The references in what is not interpreted of a part, a map of fields on an array apart. -/
def loose : Part → List String
  | .schema (.node (.ref r)) => Json.refsInMembers r.extra
  | .schema (.node (.array _ extra)) =>
    Json.refsInMembers (extra.filter fun member => member.1 ≠ "properties")
  | .schema (.node (.plain value)) => value.refs
  | .schema (.field (.ref r)) => Json.refsInMembers r.extra
  | .schema (.field (.plain value)) => value.refs
  | .reference r => Json.refsInMembers r.extra
  | x => Json.refsInMembers x.extra

/-- The references in a map of fields on an array. -/
def skipped : Part → List String
  | .schema (.node (.array _ extra)) =>
    Json.refsInMembers (extra.filter fun member => member.1 = "properties")
  | _ => []

/-- The references that are passed over in a part, above a level. -/
def skippedAbove : Nat → Part → List String
  | 0, _ => []
  | n + 1, x => x.skipped ++ x.below.flatMap (skippedAbove n)

/-- A field that is called as a reference is, and is a text. -/
def namesReference : Part → Bool
  | .schema (.node (.object (some fields) _ _ _ _ _)) =>
    (Entries.find? "$ref" fields).any fun field => field.toJson.isStr
  | _ => false

end Part

/-! ### What is written of the parts -/

theorem RefNode.refs_toJson (r : RefNode) :
    r.toJson.refs = r.reference :: Json.refsInMembers r.extra := rfl

theorem Field.refsInItems_listToJson (fields : List Field) :
    Json.refsInItems (Field.listToJson fields) = fields.flatMap (·.toJson.refs) := by
  induction fields with
  | nil => rfl
  | cons field rest ih => rw [Field.listToJson, Json.refsInItems, ih, List.flatMap_cons]

theorem Field.entriesToJson_eq_map (fields : List (String × Field)) :
    Field.entriesToJson fields = fields.map fun field => (field.1, field.2.toJson) := by
  induction fields with
  | nil => rfl
  | cons field rest ih => rw [Field.entriesToJson, ih, List.map_cons]

/-- A map of fields is no reference itself, unless a field of it is called so. -/
theorem Field.refs_entriesToJson {fields : List (String × Field)}
    (unnamed : (Entries.find? "$ref" fields).any (fun field => field.toJson.isStr) = false) :
    (Json.obj (Field.entriesToJson fields)).refs = fields.flatMap (·.2.toJson.refs) := by
  rw [Json.refs, Field.entriesToJson_eq_map, Entries.find?_map, Json.refsInMembers_eq_flatMap,
    List.flatMap_map]
  cases found : Entries.find? "$ref" fields with
  | none => rfl
  | some field =>
    rw [found] at unnamed
    cases written : field.toJson with
    | str text =>
      rw [Option.any_some, written] at unnamed
      cases unnamed
    | _ => rw [Option.map_some, written]; rfl

section Members

variable {extra more : Members} {key : String}

theorem Unreferenced.append (here : Unreferenced extra) (there : Unreferenced more) :
    Unreferenced (extra ++ more) :=
  fun text member => (List.mem_append.1 member).elim (here text) (there text)

theorem unreferenced_optionalMember (other : key ≠ "$ref") (value : Option Json) :
    Unreferenced (optionalMember key value) := by
  cases value with
  | none => exact fun text => List.not_mem_nil
  | some value =>
    intro text member
    exact other (Prod.mk.inj (List.mem_singleton.1 member)).1.symm

theorem Json.refsInMembers_optionalMember (key : String) (value : Option Json) :
    refsInMembers (optionalMember key value) = value.toList.flatMap refs := by
  cases value <;> simp [optionalMember, refsInMembers]

/-- What is written after the members that are not interpreted. -/
theorem Json.refs_obj_append (here : Unreferenced extra) (there : Unreferenced more) :
    (Json.obj (extra ++ more)).refs = refsInMembers extra ++ refsInMembers more := by
  rw [refs_obj (here.append there), refsInMembers_append]

end Members

theorem Node.refs_optionToJson (x : Option Node) :
    (Node.optionToJson x).toList.flatMap Json.refs = x.toList.flatMap (·.toJson.refs) := by
  cases x <;> rfl

theorem Field.refs_optionToJson (x : Option Field) :
    (Field.optionToJson x).toList.flatMap Json.refs = x.toList.flatMap (·.toJson.refs) := by
  cases x <;> rfl

theorem Field.refs_optionListToJson (x : Option (List Field)) :
    (Field.optionListToJson x).toList.flatMap Json.refs
      = x.toList.flatMap (List.flatMap (·.toJson.refs)) := by
  cases x with
  | none => rfl
  | some fields =>
    simp [Field.optionListToJson, Json.refs, Field.refsInItems_listToJson]

section Written

variable {items additional negated : Option Field} {properties : Option (List (String × Field))}
  {oneOf anyOf : Option (List Field)} {extra : Members}

theorem Node.refs_array (free : Unreferenced extra) : (Node.array items extra).toJson.refs
    = Json.refsInMembers extra ++ items.toList.flatMap (·.toJson.refs) := by
  rw [toJson, Json.refs_obj_append free (unreferenced_optionalMember (by decide) _),
    Json.refsInMembers_optionalMember, Field.refs_optionToJson]

theorem Node.refs_composed {parent child : Option Node} {interfaces : List RefNode}
    {inline : List Node} (free : Unreferenced extra) :
    (Node.composed parent child interfaces inline extra).toJson.refs
      = Json.refsInMembers extra ++ (parent.toList.flatMap (·.toJson.refs)
        ++ interfaces.flatMap (·.toJson.refs) ++ inline.flatMap (·.toJson.refs)
        ++ child.toList.flatMap (·.toJson.refs)) := by
  have free' (value : Json) : Unreferenced [("allOf", value)] :=
    unreferenced_optionalMember (by decide) (some value)
  rw [toJson, Json.refs_obj_append free (free' _)]
  simp [Json.refsInMembers, Json.refs, Json.refsInItems_eq_flatMap, List.flatMap_map,
    listToJson_eq_map, refs_optionToJson]

theorem Node.refs_object (free : Unreferenced extra)
    (unnamed : ∀ fields ∈ properties,
      (Entries.find? "$ref" fields).any (fun field => field.toJson.isStr) = false) :
    (Node.object properties additional oneOf anyOf negated extra).toJson.refs
      = Json.refsInMembers extra ++ properties.toList.flatMap (List.flatMap (·.2.toJson.refs))
        ++ additional.toList.flatMap (·.toJson.refs)
        ++ oneOf.toList.flatMap (List.flatMap (·.toJson.refs))
        ++ anyOf.toList.flatMap (List.flatMap (·.toJson.refs))
        ++ negated.toList.flatMap (·.toJson.refs) := by
  have fields : (Field.namedToJson properties).toList.flatMap Json.refs
      = properties.toList.flatMap (List.flatMap (·.2.toJson.refs)) := by
    cases properties with
    | none => rfl
    | some fields => simp [Field.namedToJson, Field.refs_entriesToJson (unnamed fields rfl)]
  have free' {key : String} (other : key ≠ "$ref") (value : Option Json) :
      Unreferenced (optionalMember key value) := unreferenced_optionalMember other value
  rw [toJson, Json.refs_obj ((((((free.append (free' (by decide) _)).append
    (free' (by decide) _)).append (free' (by decide) _)).append (free' (by decide) _)).append
      (free' (by decide) _)))]
  simp only [Json.refsInMembers_append, Json.refsInMembers_optionalMember, fields,
    Field.refs_optionToJson, Field.refs_optionListToJson]

theorem Field.refs_array (free : Unreferenced extra) : (Field.array items extra).toJson.refs
    = Json.refsInMembers extra ++ items.toList.flatMap (·.toJson.refs) := by
  rw [toJson, Json.refs_obj_append free (unreferenced_optionalMember (by decide) _),
    Json.refsInMembers_optionalMember, refs_optionToJson]

theorem Field.refs_map {additional : Field} (free : Unreferenced extra) :
    (Field.map additional extra).toJson.refs
      = Json.refsInMembers extra ++ additional.toJson.refs := by
  have free' (value : Json) : Unreferenced [("additionalProperties", value)] :=
    unreferenced_optionalMember (by decide) (some value)
  rw [toJson, Json.refs_obj_append free (free' _)]
  simp [Json.refsInMembers]

end Written

/-! ### What is kept of the parts -/

theorem RefNode.verbatimRefsOfList_eq (interfaces : List RefNode) :
    RefNode.verbatimRefsOfList interfaces
      = interfaces.flatMap fun r => Json.refsInMembers r.extra := by
  induction interfaces with
  | nil => rfl
  | cons r rest ih => rw [RefNode.verbatimRefsOfList, ih, List.flatMap_cons]

theorem Node.verbatimRefsOfOption_eq (x : Option Node) :
    Node.verbatimRefsOfOption x = x.toList.flatMap Node.verbatimRefs := by
  cases x <;> simp [Node.verbatimRefsOfOption]

theorem Node.verbatimRefsOfList_eq (nodes : List Node) :
    Node.verbatimRefsOfList nodes = nodes.flatMap Node.verbatimRefs := by
  induction nodes with
  | nil => rfl
  | cons node rest ih => rw [Node.verbatimRefsOfList, ih, List.flatMap_cons]

theorem Field.verbatimRefsOfOption_eq (x : Option Field) :
    Field.verbatimRefsOfOption x = x.toList.flatMap Field.verbatimRefs := by
  cases x <;> simp [Field.verbatimRefsOfOption]

theorem Field.verbatimRefsOfList_eq (fields : List Field) :
    Field.verbatimRefsOfList fields = fields.flatMap Field.verbatimRefs := by
  induction fields with
  | nil => rfl
  | cons field rest ih => rw [Field.verbatimRefsOfList, ih, List.flatMap_cons]

theorem Field.verbatimRefsOfOptionList_eq (x : Option (List Field)) :
    Field.verbatimRefsOfOptionList x = x.toList.flatMap (List.flatMap Field.verbatimRefs) := by
  cases x <;> simp [Field.verbatimRefsOfOptionList, Field.verbatimRefsOfList_eq]

theorem Field.verbatimRefsOfEntries_eq (fields : List (String × Field)) :
    Field.verbatimRefsOfEntries fields = fields.flatMap (·.2.verbatimRefs) := by
  induction fields with
  | nil => rfl
  | cons field rest ih => rw [Field.verbatimRefsOfEntries, ih, List.flatMap_cons]

theorem Field.verbatimRefsOfNamed_eq (x : Option (List (String × Field))) :
    Field.verbatimRefsOfNamed x = x.toList.flatMap (List.flatMap (·.2.verbatimRefs)) := by
  cases x <;> simp [Field.verbatimRefsOfNamed, Field.verbatimRefsOfEntries_eq]

/-! ## One level -/

namespace Part

/-- What is kept of a part is what is loose in it, and what is kept of the parts below. -/
theorem verbatimRefs_perm (x : Part) :
    x.verbatimRefs.Perm (x.loose ++ x.below.flatMap verbatimRefs) := by
  cases x with
  | reference r => exact .of_eq (List.append_nil _).symm
  | schema a =>
    cases a with
    | node a =>
      cases a with
      | ref | plain => exact .of_eq (List.append_nil _).symm
      | array items extra =>
        refine .of_eq ?_
        simp only [verbatimRefs, Node.verbatimRefs, Field.verbatimRefsOfOption_eq, loose, below,
          Schema.drop, Schema.parts, Node.parts, List.flatMap_map, Field.part, Nat.one_ne_zero,
          if_false]
      | composed parent child interfaces inline extra =>
        refine .of_eq ?_
        simp only [verbatimRefs, Node.verbatimRefs, Node.verbatimRefsOfOption_eq,
          Node.verbatimRefsOfList_eq, RefNode.verbatimRefsOfList_eq, loose, Part.extra, below,
          Schema.drop, Schema.parts, Node.parts, List.flatMap_append, List.flatMap_map, Node.part,
          List.append_assoc, Nat.one_ne_zero, if_false]
      | object properties additional oneOf anyOf negated extra =>
        simp only [verbatimRefs, Node.verbatimRefs, Field.verbatimRefsOfOption_eq,
          Field.verbatimRefsOfOptionList_eq, Field.verbatimRefsOfNamed_eq, loose, Part.extra, below,
          Schema.drop, Schema.parts, Node.parts, List.flatMap_append, List.flatMap_map,
          List.flatMap_assoc, Field.part, Nat.one_ne_zero, if_false]
        have order (own properties oneOf anyOf additional negated : List String) :
            (own ++ properties ++ oneOf ++ anyOf ++ additional ++ negated).Perm
              (own ++ (properties ++ (additional ++ (oneOf ++ (anyOf ++ negated))))) := by
          refine List.perm_iff_count.2 fun text => ?_
          simp only [List.count_append]
          omega
        exact order ..
    | field a =>
      cases a with
      | ref | primitive | plain => exact .of_eq (List.append_nil _).symm
      | array items extra =>
        refine .of_eq ?_
        simp only [verbatimRefs, Field.verbatimRefs, Field.verbatimRefsOfOption_eq, loose,
          Part.extra, below, Schema.drop, Schema.parts, Field.parts, List.flatMap_map, Field.part,
          Nat.one_ne_zero, if_false]
      | map additional extra => exact .of_eq (congrArg _ (List.append_nil _).symm)
      | schema inner => exact .of_eq (List.append_nil _).symm

/-- What is written of a part is its own reference, what is loose in it and passed over, and what is
written of the parts below. -/
theorem refs_perm_below {x : Part} (free : Unreferenced x.extra)
    (unnamed : x.namesReference = false) :
    x.toJson.refs.Perm
      (x.text?.toList ++ (x.loose ++ x.skipped) ++ x.below.flatMap (·.toJson.refs)) := by
  cases x with
  | reference r => exact .of_eq (by simp [toJson, RefNode.refs_toJson, text?, reference?, loose,
      skipped, below])
  | schema a =>
    cases a with
    | node a =>
      cases a with
      | ref r => exact .of_eq (by simp [toJson, Node.toJson, RefNode.refs_toJson, text?, reference?,
          loose, skipped, below, Schema.drop])
      | plain value => exact .of_eq (by simp [toJson, Node.toJson, text?, reference?, loose,
          skipped, below, Schema.drop, Schema.parts, Node.parts])
      | array items extra =>
        have apart : (Json.refsInMembers extra).Perm
            (Json.refsInMembers (extra.filter fun member => member.1 ≠ "properties")
              ++ Json.refsInMembers (extra.filter fun member => member.1 = "properties")) := by
          simpa using
            Json.refsInMembers_filter_perm (fun member => decide (member.1 ≠ "properties")) extra
        have free : Unreferenced extra := free
        rw [toJson, Node.refs_array free]
        refine (apart.append_right _).trans (.of_eq ?_)
        simp [text?, reference?, loose, skipped, below, Schema.drop, Schema.parts, Node.parts,
          List.flatMap_map, Field.part, toJson]
      | composed parent child interfaces inline extra =>
        have order (own parent interfaces inline child : List String) :
            (own ++ (parent ++ interfaces ++ inline ++ child)).Perm
              (own ++ (parent ++ (child ++ (interfaces ++ inline)))) := by
          refine List.perm_iff_count.2 fun text => ?_
          simp only [List.count_append]
          omega
        have free : Unreferenced extra := free
        rw [toJson, Node.refs_composed free]
        refine (order ..).trans (.of_eq ?_)
        simp [text?, reference?, loose, skipped, below, Schema.drop, Schema.parts, Node.parts,
          List.flatMap_map, Node.part, toJson, Part.extra]
      | object properties additional oneOf anyOf negated extra =>
        have unnamed : ∀ fields ∈ properties,
            (Entries.find? "$ref" fields).any (fun field => field.toJson.isStr) = false := by
          rintro fields ⟨⟩
          exact unnamed
        have free : Unreferenced extra := free
        rw [toJson, Node.refs_object free unnamed]
        refine .of_eq ?_
        simp [text?, reference?, loose, skipped, below, Schema.drop, Schema.parts, Node.parts,
          List.flatMap_map, List.flatMap_assoc, Field.part, toJson, Part.extra]
    | field a =>
      cases a with
      | ref r => exact .of_eq (by simp [toJson, Field.toJson, RefNode.refs_toJson, text?,
          reference?, loose, skipped, below, Schema.drop])
      | plain value => exact .of_eq (by simp [toJson, Field.toJson, text?, reference?, loose,
          skipped, below, Schema.drop, Schema.parts, Field.parts])
      | primitive extra =>
        have free : Unreferenced extra := free
        exact .of_eq (by simp [toJson, Field.toJson, text?, reference?, loose, skipped, below,
          Schema.drop, Schema.parts, Field.parts, Part.extra, Json.refs_obj free])
      | array items extra =>
        have free : Unreferenced extra := free
        rw [toJson, Field.refs_array free]
        exact .of_eq (by simp [text?, reference?, loose, skipped, below, Schema.drop, Schema.parts,
          Field.parts, List.flatMap_map, Field.part, toJson, Part.extra])
      | map additional extra =>
        have free : Unreferenced extra := free
        rw [toJson, Field.refs_map free]
        exact .of_eq (by simp [text?, reference?, loose, skipped, below, Schema.drop, Schema.parts,
          Field.parts, Field.part, toJson, Part.extra])
      | schema inner => exact .of_eq (by simp [toJson, Field.toJson, text?, reference?, loose,
          skipped, below, Schema.drop, Schema.parts, Field.parts, Part.extra, Node.part,
          Json.refsInMembers])

/-! ## All levels -/

/-- No map of fields in a schema has one that is called as a reference is and is a text. -/
def Unnamed (x : Part) : Prop :=
  ∀ n, ∀ y ∈ x.level n, y.namesReference = false

/-- Whether a schema ends within some levels, and no field on them is called so. -/
def isUnnamedWithin (room : Nat) (x : Part) : Bool :=
  (x.level room).isEmpty &&
    (List.range room).all fun n => (x.level n).all fun y => !y.namesReference

theorem unnamed_of_isUnnamedWithin {room : Nat} {x : Part} (h : x.isUnnamedWithin room = true) :
    x.Unnamed := by
  simp only [isUnnamedWithin, Bool.and_eq_true, List.isEmpty_iff, List.all_eq_true, List.mem_range,
    Bool.not_eq_true'] at h
  obtain ⟨ends, above⟩ := h
  intro n y member
  rcases Nat.lt_or_ge n room with within | beyond
  · exact above n within y member
  · rw [level_eq_nil_of_le ends beyond] at member
    cases member

/-- No part of a schema writes a reference that it is not. -/
structure IsClear (x : Part) : Prop where
  unnamed : x.Unnamed
  free : ∀ n, ∀ y ∈ x.level n, Unreferenced y.extra

section Clear

variable {x y : Part} {room : Nat} {f : RefNode → RefNode}

theorem IsClear.below (h : x.IsClear) (member : y ∈ x.below) : y.IsClear :=
  ⟨fun n z inside => h.unnamed (n + 1) z (mem_level_succ.2 ⟨y, member, inside⟩),
    fun n z inside => h.free (n + 1) z (mem_level_succ.2 ⟨y, member, inside⟩)⟩

/-- The references that a walk comes to are the one that a part is, and those of the parts below. -/
theorem texts_succ (scope : Scope) (room : Nat) (x : Part) :
    (x.stops scope (room + 1)).filterMap Stop.text?
      = x.text?.toList ++ x.below.flatMap fun y => (y.stops scope room).filterMap Stop.text? := by
  rw [stops_succ, List.filterMap_append, List.filterMap_flatMap, text?]
  cases x.reference? <;> rfl

/-- **What is written of a schema is what a walk comes to, what is kept, and what is passed over.**
Each reference is one of these, and only one: by induction on the room, which is enough. -/
theorem refs_perm {scope : Scope} (clear : x.IsClear)
    (whole : .tooDeep scope ∉ x.stops scope room) :
    x.toJson.refs.Perm ((x.stops scope room).filterMap Stop.text? ++ x.verbatimRefs
      ++ x.skippedAbove room) := by
  induction room generalizing x with
  | zero =>
    cases x with
    | reference r => exact .of_eq (List.append_nil _).symm
    | schema a => cases a <;> simp [stops, Schema.stops, Node.stops, Field.stops] at whole
  | succ room ih =>
    let texts (y : Part) := (y.stops scope room).filterMap Stop.text?
    have here := refs_perm_below (clear.free 0 x (List.mem_singleton_self x))
      (clear.unnamed 0 x (List.mem_singleton_self x))
    have inside : (x.below.flatMap (·.toJson.refs)).Perm
        (x.below.flatMap fun y => texts y ++ y.verbatimRefs ++ y.skippedAbove room) :=
      List.Perm.flatMap_left _ fun y member =>
        ih (clear.below member) (tooDeep_notMem_succ.1 whole y member)
    have apart : (x.below.flatMap texts ++ x.below.flatMap verbatimRefs
          ++ x.below.flatMap (skippedAbove room)).Perm
        (x.below.flatMap fun y => texts y ++ y.verbatimRefs ++ y.skippedAbove room) :=
      ((List.flatMap_append_perm x.below texts verbatimRefs).append_right _).trans
        (List.flatMap_append_perm x.below (fun y => texts y ++ y.verbatimRefs) (skippedAbove room))
    have kept := x.verbatimRefs_perm
    have come : (x.stops scope (room + 1)).filterMap Stop.text?
        = x.text?.toList ++ x.below.flatMap texts := texts_succ scope room x
    rw [come, skippedAbove]
    -- the sides list the same pieces in different orders, so they are counted
    refine List.perm_iff_count.2 fun text => ?_
    have here := here.count_eq text
    have inside := (inside.trans apart.symm).count_eq text
    have kept := kept.count_eq text
    simp only [List.count_append] at here inside kept ⊢
    omega

/-! ### Other references -/

theorem extra_mapRefs (x : Part) : (x.mapRefs f).extra = x.extra := by
  cases x with
  | reference r => rfl
  | schema a =>
    cases a with
    | node a => cases a <;> rfl
    | field a => cases a <;> rfl

theorem isStr_toJson_mapRefs (field : Field) :
    (field.mapRefs f).toJson.isStr = field.toJson.isStr := by
  cases field with
  | schema node => cases node <;> rfl
  | _ => rfl

theorem namesReference_mapRefs (x : Part) : (x.mapRefs f).namesReference = x.namesReference := by
  cases x with
  | reference r => rfl
  | schema a =>
    cases a with
    | field a => rfl
    | node a =>
      cases a with
      | object properties =>
        cases properties with
        | none => rfl
        | some fields =>
          simp only [mapRefs_node, Node.mapRefs, Field.mapRefsOfNamed_eq, Option.map_some,
            namesReference, Entries.find?_map, Option.any_map, isStr_toJson_mapRefs]
      | _ => rfl

/-- A schema with other references is as clear as before. -/
theorem IsClear.of_mapRefs_eq (h : x.IsClear) (same : y.mapRefs f = x.mapRefs f) : y.IsClear := by
  have there {n : Nat} {z : Part} (member : z ∈ y.level n) :
      ∃ w ∈ x.level n, w.mapRefs f = z.mapRefs f := by
    have levels := congrArg (level n) same
    rw [level_mapRefs, level_mapRefs] at levels
    exact List.mem_map.1 (levels ▸ List.mem_map_of_mem member)
  constructor
  · intro n z member
    obtain ⟨w, isPart, same⟩ := there member
    rw [← namesReference_mapRefs, ← same, namesReference_mapRefs]
    exact h.unnamed n w isPart
  · intro n z member
    obtain ⟨w, isPart, same⟩ := there member
    rw [← extra_mapRefs, ← same, extra_mapRefs]
    exact h.free n w isPart

end Clear

end Part

/-! ## What was read -/

section Reading

variable {layout : Layout} {members : Members} {parts : Parts}

theorem Parts.unreferenced (nothing : (Parts.ofMembers layout members).reference = .none) :
    Unreferenced members := by
  intro text member
  cases reads_reference.read_eq_none nothing member

theorem Unreferenced.erase (h : Unreferenced members) (key : String) :
    Unreferenced (Entries.erase key members) :=
  h.sublist (Entries.erase_sublist key members)

theorem Unreferenced.dropTaken {α : Type} (h : Unreferenced members) (key : String)
    (taken : Option α) : Unreferenced (dropTaken key taken members) := by
  cases taken with
  | none => exact h
  | some a => exact h.erase key

theorem Node.unreferenced_ofParts (free : parts.reference = none → Unreferenced members) :
    Unreferenced (Node.ofParts layout members parts).part.extra := by
  unfold Node.ofParts
  split
  · exact fun text => List.not_mem_nil
  · rename_i nodes nothing _
    cases nodes with
    | nil => exact (free nothing).erase "allOf"
    | cons parent rest => exact (free nothing).erase "allOf"
  · rename_i nothing _
    split
    · exact (free nothing).erase "items"
    · exact (((((free nothing).dropTaken _ _).dropTaken _ _).dropTaken _ _).dropTaken _ _).dropTaken
        _ _

/-- What is not interpreted of a schema that was read has no reference among its members. -/
theorem Part.IsRead.unreferenced {x : Part} (h : x.IsRead layout) : Unreferenced x.extra := by
  cases h with
  | reference r => exact fun text => List.not_mem_nil
  | node value =>
    cases value with
    | obj members =>
      rw [Node.ofJson]
      exact Node.unreferenced_ofParts Parts.unreferenced
    | _ => exact fun text => List.not_mem_nil
  | field value =>
    cases value with
    | obj members =>
      rw [Field.ofJson, Field.ofParts]
      split
      · exact fun text => List.not_mem_nil
      · rename_i nothing
        have free := Parts.unreferenced nothing
        split
        · exact fun text => List.not_mem_nil
        · split
          · exact free.erase "items"
          · split
            · exact free.erase "additionalProperties"
            · exact free
    | _ => exact fun text => List.not_mem_nil

theorem Part.IsRead.isClear {x : Part} (h : x.IsRead layout) (unnamed : x.Unnamed) : x.IsClear :=
  ⟨unnamed, fun _ _ member => (h.of_mem_level member).unreferenced⟩

end Reading

end SchemaBundle
