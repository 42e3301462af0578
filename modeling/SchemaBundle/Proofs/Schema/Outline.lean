import SchemaBundle.Proofs.Json.Loadable
import SchemaBundle.Proofs.Schema.Rereading

/-!
# What is written of a schema, strings apart

If other references take the place of those in a schema, beside the same members, then nothing but
strings changes in what is written of it (`Node.outline_mapRefs`). So it can be loaded if it could be
before.
-/

namespace SchemaBundle

namespace Json

/-- A value with its strings left blank. -/
def outline (value : Json) : Json :=
  value.mapStrings fun _ => ""

theorem mapStringsOfItems_eq_map (f : String → String) (items : List Json) :
    mapStringsOfItems f items = items.map (mapStrings f) := by
  induction items with
  | nil => rfl
  | cons x xs ih => rw [mapStringsOfItems, ih, List.map_cons]

theorem mapStringsOfMembers_eq_map (f : String → String) (members : Members) :
    mapStringsOfMembers f members = members.map fun entry => (entry.1, entry.2.mapStrings f) := by
  induction members with
  | nil => rfl
  | cons entry rest ih => rw [mapStringsOfMembers, ih, List.map_cons]

theorem outline_arr (items : List Json) : (Json.arr items).outline = .arr (items.map outline) := by
  rw [outline, mapStrings, mapStringsOfItems_eq_map]
  rfl

theorem outline_obj (members : Members) :
    (Json.obj members).outline = .obj (members.map fun entry => (entry.1, entry.2.outline)) := by
  rw [outline, mapStrings, mapStringsOfMembers_eq_map]
  rfl

theorem outline_str (text text' : String) : (Json.str text).outline = (Json.str text').outline := by
  rw [outline, outline, mapStrings, mapStrings]

end Json

open Json

theorem map_optionalMember (key : String) (value : Option Json) :
    (optionalMember key value).map (fun entry => (entry.1, entry.2.outline))
      = optionalMember key (value.map outline) := by
  cases value <;> rfl

/-! ## Changing references -/

section MapRefs

variable {f : RefNode → RefNode}

theorem RefNode.outline_toJson_eq {r r' : RefNode} (keeps : r'.extra = r.extra) :
    r'.toJson.outline = r.toJson.outline := by
  rw [toJson, toJson, outline_obj, outline_obj, List.map_cons, List.map_cons, keeps,
    outline_str r'.reference r.reference]

theorem outline_interfaces (keeps : ∀ r, (f r).extra = r.extra) (interfaces : List RefNode) :
    ((interfaces.map f).map RefNode.toJson).map outline
      = (interfaces.map RefNode.toJson).map outline := by
  simp only [List.map_map]
  exact List.map_congr_left fun r _ => RefNode.outline_toJson_eq (keeps r)

mutual

/-- Changing references changes strings at most. -/
theorem Node.outline_mapRefs (keeps : ∀ r, (f r).extra = r.extra) : ∀ node : Node,
    (node.mapRefs f).toJson.outline = node.toJson.outline
  | .ref r => RefNode.outline_toJson_eq (keeps r)
  | .array items extra => by
    simp only [Node.mapRefs, Node.toJson, outline_obj, List.map_append, map_optionalMember,
      Field.outline_mapRefsOfOption keeps items]
  | .composed parent child interfaces inline extra => by
    simp only [Node.mapRefs, Node.toJson, outline_obj, outline_arr, List.map_append, List.map_cons,
      List.map_nil, ← Option.toList_map, Node.outline_mapRefsOfOption keeps parent,
      Node.outline_mapRefsOfOption keeps child, outline_interfaces keeps interfaces,
      Node.outline_mapRefsOfList keeps inline]
  | .object properties additional oneOf anyOf negated extra => by
    simp only [Node.mapRefs, Node.toJson, outline_obj, List.map_append, map_optionalMember,
      Field.outline_mapRefsOfNamed keeps properties,
      Field.outline_mapRefsOfOption keeps additional, Field.outline_mapRefsOfOptionList keeps oneOf,
      Field.outline_mapRefsOfOptionList keeps anyOf, Field.outline_mapRefsOfOption keeps negated]
  | .plain value => rfl

theorem Node.outline_mapRefsOfOption (keeps : ∀ r, (f r).extra = r.extra) : ∀ node : Option Node,
    (Node.optionToJson (Node.mapRefsOfOption f node)).map outline
      = (Node.optionToJson node).map outline
  | none => rfl
  | some node => congrArg some (Node.outline_mapRefs keeps node)

theorem Node.outline_mapRefsOfList (keeps : ∀ r, (f r).extra = r.extra) : ∀ nodes : List Node,
    (Node.listToJson (Node.mapRefsOfList f nodes)).map outline = (Node.listToJson nodes).map outline
  | [] => rfl
  | node :: rest => by
    simp only [Node.mapRefsOfList, Node.listToJson, List.map_cons,
      Node.outline_mapRefs keeps node, Node.outline_mapRefsOfList keeps rest]

theorem Field.outline_mapRefs (keeps : ∀ r, (f r).extra = r.extra) : ∀ field : Field,
    (field.mapRefs f).toJson.outline = field.toJson.outline
  | .ref r => RefNode.outline_toJson_eq (keeps r)
  | .array items extra => by
    simp only [Field.mapRefs, Field.toJson, outline_obj, List.map_append, map_optionalMember,
      Field.outline_mapRefsOfOption keeps items]
  | .map additional extra => by
    simp only [Field.mapRefs, Field.toJson, outline_obj, List.map_append, List.map_cons,
      List.map_nil, Field.outline_mapRefs keeps additional]
  | .schema node => by
    simp only [Field.mapRefs, Field.toJson, Node.outline_mapRefs keeps node]
  | .primitive extra => rfl
  | .plain value => rfl

theorem Field.outline_mapRefsOfOption (keeps : ∀ r, (f r).extra = r.extra) :
    ∀ field : Option Field, (Field.optionToJson (Field.mapRefsOfOption f field)).map outline
      = (Field.optionToJson field).map outline
  | none => rfl
  | some field => congrArg some (Field.outline_mapRefs keeps field)

theorem Field.outline_mapRefsOfList (keeps : ∀ r, (f r).extra = r.extra) : ∀ fields : List Field,
    (Field.listToJson (Field.mapRefsOfList f fields)).map outline
      = (Field.listToJson fields).map outline
  | [] => rfl
  | field :: rest => by
    simp only [Field.mapRefsOfList, Field.listToJson, List.map_cons,
      Field.outline_mapRefs keeps field, Field.outline_mapRefsOfList keeps rest]

theorem Field.outline_mapRefsOfOptionList (keeps : ∀ r, (f r).extra = r.extra) :
    ∀ fields : Option (List Field),
    (Field.optionListToJson (Field.mapRefsOfOptionList f fields)).map outline
      = (Field.optionListToJson fields).map outline
  | none => rfl
  | some fields => by
    simp only [Field.mapRefsOfOptionList, Field.optionListToJson, Option.map_some, outline_arr,
      Field.outline_mapRefsOfList keeps fields]

theorem Field.outline_mapRefsOfEntries (keeps : ∀ r, (f r).extra = r.extra) :
    ∀ fields : List (String × Field),
    (Field.entriesToJson (Field.mapRefsOfEntries f fields)).map
        (fun entry => (entry.1, entry.2.outline))
      = (Field.entriesToJson fields).map fun entry => (entry.1, entry.2.outline)
  | [] => rfl
  | (_, field) :: rest => by
    simp only [Field.mapRefsOfEntries, Field.entriesToJson, List.map_cons,
      Field.outline_mapRefs keeps field, Field.outline_mapRefsOfEntries keeps rest]

theorem Field.outline_mapRefsOfNamed (keeps : ∀ r, (f r).extra = r.extra) :
    ∀ fields : Option (List (String × Field)),
    (Field.namedToJson (Field.mapRefsOfNamed f fields)).map outline
      = (Field.namedToJson fields).map outline
  | none => rfl
  | some fields => by
    simp only [Field.mapRefsOfNamed, Field.namedToJson, Option.map_some, outline_obj,
      Field.outline_mapRefsOfEntries keeps fields]

end

end MapRefs

/-! ## Loading what is written -/

/-- Schemas that differ in the aims of references are written as values that can both be loaded, or
neither. -/
theorem Node.Alike.loadable_toJson_iff {a b : Node} (h : a.Alike b) :
    a.toJson.Loadable ↔ b.toJson.Loadable := by
  have same (node : Node) : (node.mapRefs RefNode.unaimed).toJson.outline = node.toJson.outline :=
    Node.outline_mapRefs (f := RefNode.unaimed) (fun _ => rfl) node
  have outlines : a.toJson.outline = b.toJson.outline := by
    rw [← same a, ← same b]
    exact congrArg (fun node : Node => node.toJson.outline) h
  rw [← loadable_mapStrings_iff a.toJson, ← loadable_mapStrings_iff b.toJson]
  exact iff_of_eq (congrArg Json.Loadable outlines)

/-- What is written of a schema can be loaded if the schema can. -/
theorem loadable_toJson_ofJson (layout : Layout) {value : Json} (loadable : value.Loadable) :
    (Node.ofJson layout value).toJson.Loadable :=
  .of_sameData (roundTrips value loadable.wellFormed).nodeForm (loadable.nodeForm layout)

end SchemaBundle
