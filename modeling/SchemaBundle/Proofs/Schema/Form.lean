import SchemaBundle.Proofs.Schema.Members
import SchemaBundle.Proofs.Schema.Places

/-!
# Schemas in their written form

What writing a schema makes of the value that it was read from can be said in place, without the
model in between: a bare name in a reference is expanded, and in a composition the references among
the middle members come first. This happens where a schema is expected; every other member, and
every member of an unexpected shape, is left alone. `Json.nodeForm` and `Json.fieldForm` say so of
values that are read as definitions and as fields.

Two values are `Json.SameData` if they differ in the order of the members of objects alone.
-/

namespace SchemaBundle

/-! ## Middle members -/

section Middle

variable {α β : Type}

/-- The list with those of its middle members first that satisfy `p`. The first and the last member
stay, and both groups keep their order. -/
def middleSorted (p : α → Bool) : List α → List α
  | [] => []
  | first :: rest =>
    first :: (rest.dropLast.filter p ++ rest.dropLast.filter (!p ·)) ++ rest.getLast?.toList

theorem middleSorted_cons_append (p : α → Bool) (first last : α) (middle : List α) :
    middleSorted p (first :: (middle ++ [last]))
      = first :: (middle.filter p ++ middle.filter (!p ·)) ++ [last] := by
  simp [middleSorted]

/-- A list has no middle members, or a first and a last one around them. -/
theorem eq_of_middle (xs : List α) :
    xs = [] ∨ (∃ x, xs = [x]) ∨ ∃ first middle last, xs = first :: (middle ++ [last]) := by
  cases xs with
  | nil => exact .inl rfl
  | cons first rest =>
    rcases List.eq_nil_or_concat rest with rfl | ⟨middle, last, rfl⟩
    · exact .inr (.inl ⟨first, rfl⟩)
    · exact .inr (.inr ⟨first, middle, last, by rw [List.concat_eq_append]⟩)

/-- No member is lost and none comes twice. -/
theorem perm_middleSorted (p : α → Bool) (xs : List α) : (middleSorted p xs).Perm xs := by
  rcases eq_of_middle xs with rfl | ⟨x, rfl⟩ | ⟨first, middle, last, rfl⟩
  · exact .nil
  · exact .refl _
  · rw [middleSorted_cons_append, List.cons_append]
    exact ((List.filter_append_perm p middle).append_right [last]).cons first

theorem map_middleSorted {p : α → Bool} {q : β → Bool} {f : α → β} {xs : List α}
    (h : ∀ x ∈ xs, q (f x) = p x) : (middleSorted p xs).map f = middleSorted q (xs.map f) := by
  rcases eq_of_middle xs with rfl | ⟨x, rfl⟩ | ⟨first, middle, last, rfl⟩
  · rfl
  · rfl
  · have inside : ∀ x ∈ middle, q (f x) = p x := fun x member => h x (by simp [member])
    have yes : (middle.map f).filter q = (middle.filter p).map f := by
      rw [List.filter_map]
      exact congrArg (List.map f) (List.filter_congr inside)
    have no : (middle.map f).filter (!q ·) = (middle.filter (!p ·)).map f := by
      rw [List.filter_map]
      exact congrArg (List.map f)
        (List.filter_congr fun x member => congrArg (!·) (inside x member))
    have image : (first :: (middle ++ [last])).map f = f first :: (middle.map f ++ [f last]) := by
      simp
    rw [image, middleSorted_cons_append, middleSorted_cons_append, yes, no]
    simp

end Middle

/-! ## Kinds of schema -/

/-- What the members of an object make of it. -/
inductive SchemaKind
  | reference
  | composition
  | array
  | object
  | dictionary
  | scalar
  deriving DecidableEq, Repr

/-- The keys that are interpreted in a schema of some kind. -/
def SchemaKind.keys : SchemaKind → List String
  | .reference => ["$ref"]
  | .composition => ["allOf"]
  | .array => ["items"]
  | .object => ["properties", "additionalProperties", "oneOf", "anyOf", "not"]
  | .dictionary => ["additionalProperties"]
  | .scalar => []

theorem SchemaKind.nodup_keys (kind : SchemaKind) : kind.keys.Nodup := by
  cases kind <;> decide

namespace Json

/-- Whether there is a member of a name with a shape. -/
def has (key : String) (shape : Json → Bool) (members : Members) : Bool :=
  (Entries.find? key members).any shape

/-- What an object is that is read as a definition. -/
def nodeKind (members : Members) : SchemaKind :=
  if has "$ref" isStr members then .reference
  else if has "allOf" isArr members then .composition
  else if isArraySchema members then .array
  else .object

/-- What an object is that is read as a field. Some keys make it an inline definition. -/
def fieldKind (members : Members) : SchemaKind :=
  if has "$ref" isStr members then .reference
  else if has "allOf" isArr members || has "oneOf" isArr members || has "anyOf" isArr members
      || has "properties" isObj members || has "not" isObj members then nodeKind members
  else if isArraySchema members then .array
  else if has "additionalProperties" isObj members then .dictionary
  else .scalar

/-- Whether a value is read as a reference. -/
def isReference (value : Json) : Bool :=
  (value.member? "$ref").any isStr

/-! ## Forms -/

mutual

/-- A value that is read as a definition, as it is written. -/
def nodeForm (layout : Layout) : Json → Json
  | .obj members => .obj (membersForm layout (nodeKind members) members)
  | value => value

/-- Definitions one after the other. -/
def nodeForms (layout : Layout) : List Json → List Json
  | [] => []
  | value :: rest => nodeForm layout value :: nodeForms layout rest

/-- A value that is read as a field, as it is written. -/
def fieldForm (layout : Layout) : Json → Json
  | .obj members => .obj (membersForm layout (fieldKind members) members)
  | value => value

/-- Fields one after the other. -/
def fieldForms (layout : Layout) : List Json → List Json
  | [] => []
  | value :: rest => fieldForm layout value :: fieldForms layout rest

/-- Named fields. -/
def namedForms (layout : Layout) : List (String × Json) → List (String × Json)
  | [] => []
  | (name, value) :: rest => (name, fieldForm layout value) :: namedForms layout rest

/-- The members of an object of some kind. -/
def membersForm (layout : Layout) (kind : SchemaKind) :
    List (String × Json) → List (String × Json)
  | [] => []
  | (key, value) :: rest => (key, memberForm layout kind key value) :: membersForm layout kind rest

/-- A member of an object of some kind. It is left alone if its key is not interpreted there, or if
it has not the shape that is expected. -/
def memberForm (layout : Layout) (kind : SchemaKind) (key : String) : Json → Json
  | .str text =>
    match kind, key with
    | .reference, "$ref" => .str (Reference.normalize text layout).1
    | _, _ => .str text
  | .arr values =>
    match kind, key with
    | .composition, "allOf" => .arr (middleSorted isReference (nodeForms layout values))
    | .object, "oneOf" | .object, "anyOf" => .arr (fieldForms layout values)
    | _, _ => .arr values
  | .obj members =>
    match kind, key with
    | .object, "properties" => .obj (namedForms layout members)
    | .object, "additionalProperties" | .object, "not" | .array, "items"
    | .dictionary, "additionalProperties" =>
      .obj (membersForm layout (fieldKind members) members)
    | _, _ => .obj members
  | value => value

end

/-- A key that is not interpreted. -/
theorem memberForm_of_notMem {kind : SchemaKind} {key : String} (h : key ∉ kind.keys)
    (layout : Layout) (value : Json) : memberForm layout kind key value = value := by
  cases value with
  | str text =>
    unfold memberForm
    split <;> first | rfl | exact absurd (by decide) h
  | arr values =>
    unfold memberForm
    split <;> first | rfl | exact absurd (by decide) h
  | obj members =>
    unfold memberForm
    split <;> first | rfl | exact absurd (by decide) h
  | _ => rfl

theorem nodeForms_eq_map (layout : Layout) (values : List Json) :
    nodeForms layout values = values.map (nodeForm layout) := by
  induction values with
  | nil => rfl
  | cons value rest ih => rw [nodeForms, ih, List.map_cons]

theorem find?_membersForm (layout : Layout) (kind : SchemaKind) (key : String)
    (members : Members) : Entries.find? key (membersForm layout kind members)
      = (Entries.find? key members).map (memberForm layout kind key) := by
  induction members with
  | nil => rfl
  | cons entry rest ih =>
    obtain ⟨other, value⟩ := entry
    by_cases same : other = key
    · simp [membersForm, Entries.find?, same]
    · simp [membersForm, Entries.find?, same, ih]

/-- No key is lost. -/
theorem keys_membersForm (layout : Layout) (kind : SchemaKind) (members : Members) :
    Entries.keys (membersForm layout kind members) = Entries.keys members := by
  induction members with
  | nil => rfl
  | cons entry rest ih => rw [membersForm, Entries.keys_cons, ih, Entries.keys_cons]

/-! ## Equality up to the order of members -/

mutual

/-- The values differ in the order of the members of objects alone. -/
def SameData : Json → Json → Prop
  | .arr xs, .arr ys => SameItems xs ys
  | .obj xs, .obj ys => ∃ zs, zs.Perm ys ∧ SameMembers xs zs
  | x, y => x = y

/-- The items are the same, one by one. -/
def SameItems : List Json → List Json → Prop
  | [], [] => True
  | x :: xs, y :: ys => SameData x y ∧ SameItems xs ys
  | _, _ => False

/-- The members are the same, one by one. -/
def SameMembers : List (String × Json) → List (String × Json) → Prop
  | [], [] => True
  | (key, x) :: xs, (key', y) :: ys => key = key' ∧ SameData x y ∧ SameMembers xs ys
  | _, _ => False

end

mutual

theorem SameData.refl : ∀ value : Json, SameData value value
  | .null | .bool _ | .int _ | .float _ | .str _ => by simp [SameData]
  | .arr items => by
    rw [SameData]
    exact SameItems.refl items
  | .obj members => by
    rw [SameData]
    exact ⟨members, .refl _, SameMembers.refl members⟩

theorem SameItems.refl : ∀ items : List Json, SameItems items items
  | [] => trivial
  | item :: rest => ⟨SameData.refl item, SameItems.refl rest⟩

theorem SameMembers.refl : ∀ members : List (String × Json), SameMembers members members
  | [] => trivial
  | (_, value) :: rest => ⟨rfl, SameData.refl value, SameMembers.refl rest⟩

end

theorem sameItems_iff {xs ys : List Json} : SameItems xs ys ↔ List.Forall₂ SameData xs ys := by
  induction xs generalizing ys with
  | nil => cases ys <;> simp [SameItems]
  | cons x rest ih => cases ys <;> simp [SameItems, ih]

/-- Under distinct names it is enough that every name leads to the same. -/
theorem sameData_of_find? {xs ys : Members} (distinct : xs.Distinct) (distinct' : ys.Distinct)
    (h : ∀ key, Option.Rel SameData (Entries.find? key xs) (Entries.find? key ys)) :
    SameData (.obj xs) (.obj ys) := by
  rw [SameData]
  induction xs generalizing ys with
  | nil =>
    cases ys with
    | nil => exact ⟨[], .nil, trivial⟩
    | cons y rest =>
      have first := h y.1
      simp only [Entries.find?, if_true] at first
      cases first
  | cons x rest ih =>
    obtain ⟨key, value⟩ := x
    obtain ⟨absent, distinct⟩ := List.nodup_cons.1 distinct
    have first := h key
    rw [Entries.find?, if_pos rfl] at first
    obtain ⟨value', found, same⟩ := optionRel_left first rfl
    have others : ∀ other, Option.Rel SameData (Entries.find? other rest)
        (Entries.find? other (Entries.erase key ys)) := by
      intro other
      by_cases isKey : key = other
      · subst isKey
        rw [Entries.find?_eq_none_iff.2 absent, Entries.find?_erase_self distinct']
        exact .none
      · have related := h other
        rw [Entries.find?, if_neg isKey] at related
        rwa [Entries.find?_erase_of_ne isKey]
    obtain ⟨zs, perm, members⟩ := ih distinct (Entries.distinct_erase distinct' key) others
    exact ⟨(key, value') :: zs, (perm.cons _).trans (Entries.cons_erase_perm found), rfl, same,
      members⟩

end Json

end SchemaBundle
