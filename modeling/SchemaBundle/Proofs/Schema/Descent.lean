import SchemaBundle.Proofs.Resolve.Levels
import SchemaBundle.Proofs.Schema.Comparison

/-!
# The parts of a schema that was read

What is read of a key is read of one of its members, and if nothing is, then no member of this key
has the shape expected of it (`Parts.Reads`). So the parts of a schema that was read of a value were
themselves read of values (`Part.IsRead.of_mem_below`), and what holds of everything that is read
holds at every level of it.
-/

namespace SchemaBundle

/-! ## One key -/

namespace Parts

variable {α : Type} {layout : Layout} {get : Parts → Option α} {key : String}
  {read : Json → Option α} {members : Members}

/-- A component of what is read looks at the members of one key, and at nothing else. -/
structure Reads (layout : Layout) (get : Parts → Option α) (key : String)
    (read : Json → Option α) : Prop where
  none : get .none = .none
  member : ∀ other parts value, get (withMember layout other parts value)
    = (if other = key then read value else .none).or (get parts)

theorem Reads.exists_member (h : Reads layout get key read) {a : α}
    (found : a ∈ get (ofMembers layout members)) :
    ∃ value, (key, value) ∈ members ∧ read value = some a := by
  induction members with
  | nil =>
    rw [ofMembers, h.none] at found
    cases found
  | cons entry rest ih =>
    obtain ⟨other, value⟩ := entry
    rw [ofMembers, h.member, Option.mem_def, Option.or_eq_some_iff] at found
    rcases found with here | ⟨-, later⟩
    · split at here
      · rename_i same
        exact ⟨value, same ▸ List.mem_cons_self .., here⟩
      · cases here
    · obtain ⟨value, member, reads⟩ := ih later
      exact ⟨value, List.mem_cons_of_mem _ member, reads⟩

/-- What holds of everything that is read of a value holds of the component. -/
theorem Reads.forall_mem (h : Reads layout get key read) {P : α → Prop}
    (holds : ∀ value a, read value = some a → P a) : ∀ a ∈ get (ofMembers layout members), P a := by
  intro a found
  obtain ⟨value, -, reads⟩ := h.exists_member found
  exact holds value a reads

theorem Reads.read_eq_none (h : Reads layout get key read)
    (nothing : get (ofMembers layout members) = .none) {value : Json}
    (member : (key, value) ∈ members) : read value = .none := by
  induction members with
  | nil => cases member
  | cons entry rest ih =>
    obtain ⟨other, first⟩ := entry
    rw [ofMembers, h.member, Option.or_eq_none_iff] at nothing
    rcases List.mem_cons.1 member with here | later
    · obtain ⟨rfl, rfl⟩ := Prod.mk.inj here
      rw [if_pos rfl] at nothing
      exact nothing.1
    · exact ih nothing.2 later

theorem reads_reference : Reads layout reference "$ref" Json.text? :=
  ⟨rfl, fun _ _ _ => by rw [withMember_eq]⟩

theorem reads_allOf : Reads layout allOf "allOf" (Json.nodes? layout) :=
  ⟨rfl, fun _ _ _ => by rw [withMember_eq]⟩

theorem reads_items : Reads layout items "items" (Json.anyField? layout) :=
  ⟨rfl, fun _ _ _ => by rw [withMember_eq]⟩

theorem reads_properties : Reads layout properties "properties" (Json.named? layout) :=
  ⟨rfl, fun _ _ _ => by rw [withMember_eq]⟩

theorem reads_additional : Reads layout additional "additionalProperties" (Json.field? layout) :=
  ⟨rfl, fun _ _ _ => by rw [withMember_eq]⟩

theorem reads_oneOf : Reads layout oneOf "oneOf" (Json.fields? layout) :=
  ⟨rfl, fun _ _ _ => by rw [withMember_eq]⟩

theorem reads_anyOf : Reads layout anyOf "anyOf" (Json.fields? layout) :=
  ⟨rfl, fun _ _ _ => by rw [withMember_eq]⟩

theorem reads_negated : Reads layout negated "not" (Json.field? layout) :=
  ⟨rfl, fun _ _ _ => by rw [withMember_eq]⟩

end Parts

/-! ## The parts below -/

/-- A part that was read of a value, or a reference. -/
inductive Part.IsRead (layout : Layout) : Part → Prop
  | node (value : Json) : IsRead layout (Node.ofJson layout value).part
  | field (value : Json) : IsRead layout (Field.ofJson layout value).part
  | reference (r : RefNode) : IsRead layout (.reference r)

/-- What the interpreted keys hold was read of values. -/
structure Parts.AreRead (layout : Layout) (parts : Parts) : Prop where
  allOf : ∀ nodes ∈ parts.allOf, ∀ node ∈ nodes, node.part.IsRead layout
  items : ∀ field ∈ parts.items, field.part.IsRead layout
  properties : ∀ fields ∈ parts.properties, ∀ field ∈ fields, field.2.part.IsRead layout
  additional : ∀ field ∈ parts.additional, field.part.IsRead layout
  oneOf : ∀ fields ∈ parts.oneOf, ∀ field ∈ fields, field.part.IsRead layout
  anyOf : ∀ fields ∈ parts.anyOf, ∀ field ∈ fields, field.part.IsRead layout
  negated : ∀ field ∈ parts.negated, field.part.IsRead layout

section Reading

variable {layout : Layout} {members : Members} {parts : Parts} {value : Json} {x y : Part}

theorem Json.isRead_of_nodes? {nodes : List Node} (h : value.nodes? layout = some nodes) :
    ∀ node ∈ nodes, node.part.IsRead layout := by
  cases value with
  | arr values =>
    obtain rfl := Option.some.inj h
    intro node member
    rw [Node.listOfJson_eq_map] at member
    obtain ⟨value, -, rfl⟩ := List.mem_map.1 member
    exact .node value
  | _ => cases h

theorem Json.isRead_of_fields? {fields : List Field} (h : value.fields? layout = some fields) :
    ∀ field ∈ fields, field.part.IsRead layout := by
  cases value with
  | arr values =>
    obtain rfl := Option.some.inj h
    intro field member
    rw [Field.listOfJson_eq_map] at member
    obtain ⟨value, -, rfl⟩ := List.mem_map.1 member
    exact .field value
  | _ => cases h

theorem Json.isRead_of_named? {fields : List (String × Field)}
    (h : value.named? layout = some fields) : ∀ field ∈ fields, field.2.part.IsRead layout := by
  cases value with
  | obj members =>
    obtain rfl := Option.some.inj h
    intro field member
    rw [Field.entriesOfJson_eq_map] at member
    obtain ⟨entry, -, rfl⟩ := List.mem_map.1 member
    exact .field entry.2
  | _ => cases h

theorem Json.isRead_of_field? {field : Field} (h : value.field? layout = some field) :
    field.part.IsRead layout := by
  cases value with
  | obj members => exact Option.some.inj h ▸ .field _
  | _ => cases h

theorem Parts.areRead_ofMembers (layout : Layout) (members : Members) :
    (Parts.ofMembers layout members).AreRead layout where
  allOf := reads_allOf.forall_mem fun _ _ => Json.isRead_of_nodes?
  items := reads_items.forall_mem fun value _ read => Option.some.inj read ▸ .field value
  properties := reads_properties.forall_mem fun _ _ => Json.isRead_of_named?
  additional := reads_additional.forall_mem fun _ _ => Json.isRead_of_field?
  oneOf := reads_oneOf.forall_mem fun _ _ => Json.isRead_of_fields?
  anyOf := reads_anyOf.forall_mem fun _ _ => Json.isRead_of_fields?
  negated := reads_negated.forall_mem fun _ _ => Json.isRead_of_field?

/-- The members of a composition are the parts below it. -/
theorem Node.exists_of_mem_ofMembers {nodes : List Node} {extra : Members}
    (member : y ∈ (Node.ofMembers nodes extra).part.below) :
    (∃ node ∈ nodes, y = node.part) ∨ ∃ r, y = .reference r := by
  cases nodes with
  | nil => cases member
  | cons parent rest =>
    have member : y ∈ (Node.ofMembers (parent :: rest) extra).parts := member
    simp only [Node.ofMembers, Node.parts, List.mem_append, List.mem_map,
      Option.mem_toList] at member
    rcases member with ⟨node, isParent, rfl⟩ | ⟨node, isChild, rfl⟩ | ⟨r, -, rfl⟩ |
      ⟨node, isInline, rfl⟩
    · cases isParent
      exact .inl ⟨parent, List.mem_cons_self .., rfl⟩
    · exact .inl ⟨node, List.mem_cons_of_mem _ (List.mem_of_getLast? isChild), rfl⟩
    · exact .inr ⟨r, rfl⟩
    · exact .inl ⟨node, List.mem_cons_of_mem _ ((List.dropLast_sublist _).subset
        (List.mem_filter.1 isInline).1), rfl⟩

theorem Node.isRead_below (h : parts.AreRead layout)
    (member : y ∈ (Node.ofParts layout members parts).part.below) : y.IsRead layout := by
  unfold Node.ofParts at member
  split at member
  · cases member
  · rename_i nodes _ found
    rcases Node.exists_of_mem_ofMembers member with ⟨node, isNode, rfl⟩ | ⟨r, rfl⟩
    · exact h.allOf nodes found node isNode
    · exact .reference r
  · split at member
    · obtain ⟨field, isItems, rfl⟩ := List.mem_map.1 member
      exact h.items field (Option.mem_toList.1 isItems)
    · have member : y ∈ (Node.object parts.properties parts.additional parts.oneOf parts.anyOf
        parts.negated []).parts := member
      simp only [Node.parts, List.mem_append, List.mem_flatMap, List.mem_map,
        Option.mem_toList] at member
      rcases member with ⟨fields, found, field, isField, rfl⟩ | ⟨field, found, rfl⟩ |
        ⟨fields, found, field, isField, rfl⟩ | ⟨fields, found, field, isField, rfl⟩ |
        ⟨field, found, rfl⟩
      · exact h.properties fields found field isField
      · exact h.additional field found
      · exact h.oneOf fields found field isField
      · exact h.anyOf fields found field isField
      · exact h.negated field found

/-- **The parts of what was read were read.** -/
theorem Part.IsRead.of_mem_below (h : x.IsRead layout) (member : y ∈ x.below) :
    y.IsRead layout := by
  cases h with
  | reference r => cases member
  | node value =>
    cases value with
    | obj members =>
      rw [Node.ofJson] at member
      exact Node.isRead_below (Parts.areRead_ofMembers layout members) member
    | _ => cases member
  | field value =>
    cases value with
    | obj members =>
      have read := Parts.areRead_ofMembers layout members
      rw [Field.ofJson, Field.ofParts] at member
      split at member
      · cases member
      · split at member
        -- an inline schema is read of the value that the field is read of
        · obtain rfl := List.mem_singleton.1 member
          have whole : Node.ofParts layout members (Parts.ofMembers layout members)
              = Node.ofJson layout (.obj members) := by rw [Node.ofJson]
          exact whole ▸ .node (.obj members)
        · split at member
          · obtain ⟨field, isItems, rfl⟩ := List.mem_map.1 member
            exact read.items field (Option.mem_toList.1 isItems)
          · split at member
            · rename_i additional found
              obtain rfl := List.mem_singleton.1 member
              exact read.additional additional found
            · cases member
    | _ => cases member

theorem Part.IsRead.of_mem_level (h : x.IsRead layout) {n : Nat} (member : y ∈ x.level n) :
    y.IsRead layout := by
  induction n generalizing x with
  | zero => exact List.mem_singleton.1 member ▸ h
  | succ n ih =>
    obtain ⟨z, isPart, inside⟩ := Part.mem_level_succ.1 member
    exact ih (h.of_mem_below isPart) inside

end Reading

end SchemaBundle
