import SchemaBundle.Proofs.Document.Emission
import SchemaBundle.Proofs.Schema.RoundTrip

/-!
# Documents survive reading and writing

The layout of a document is guessed from its keys, its registry is taken out of its place, and
`null` is left there. When the document is written, the registry goes back into its place if there
is one, and all around it is what was read (`Json.SameAround`). So the guess comes out the same the
second time, whatever stands in the place, and the document that is read again is the one that was
written (`document_roundTrip`).
-/

namespace SchemaBundle

/-! ## Values that agree around a place -/

/-- Two values agree around the place that segments lead to: on the way they have the same names in
the same positions, and the members beside the way are the same. What stands in the place may
differ. -/
def Json.SameAround : List (List Char) → Json → Json → Prop
  | [], _, _ => True
  | segment :: path, .obj xs, .obj ys =>
    List.Forall₂ (fun x y => x.1 = y.1 ∧
      if x.1.toList = segment then SameAround path x.2 y.2 else x.2 = y.2) xs ys
  | _ :: _, v, w => v = w

namespace Json

theorem SameAround.refl (path : List (List Char)) (value : Json) : SameAround path value value := by
  induction path generalizing value with
  | nil => trivial
  | cons segment path ih =>
    cases value with
    | obj members =>
      rw [SameAround, List.forall₂_same]
      exact fun x _ => ⟨rfl, by split <;> simp [ih]⟩
    | _ => rfl

/-- A member that is there takes another value. -/
theorem sameAround_insert {path : List (List Char)} {key : String} {members : Members}
    {value value' : Json} (present : Entries.find? key members = some value)
    (same : SameAround path value value') :
    SameAround (key.toList :: path) (.obj members) (.obj (Entries.insert key value' members)) := by
  have rest (others : Members) : List.Forall₂ (fun x y : String × Json => x.1 = y.1 ∧
      if x.1.toList = key.toList then SameAround path x.2 y.2 else x.2 = y.2) others others :=
    SameAround.refl (key.toList :: path) (.obj others)
  rw [SameAround]
  induction members with
  | nil => cases present
  | cons entry others ih =>
    obtain ⟨k, v⟩ := entry
    by_cases here : k = key
    · subst here
      rw [Entries.find?, if_pos rfl, Option.some.injEq] at present
      rw [Entries.insert, if_pos rfl]
      refine .cons ⟨rfl, ?_⟩ (rest others)
      rwa [if_pos rfl, present]
    · rw [Entries.find?, if_neg here] at present
      rw [Entries.insert, if_neg here]
      refine .cons ⟨rfl, ?_⟩ (ih present)
      split
      · exact SameAround.refl path v
      · rfl

end Json

theorem Entries.insert_insert {α : Type} (key : String) (first second : α) (entries : Entries α) :
    insert key second (insert key first entries) = insert key second entries := by
  induction entries with
  | nil => simp [insert]
  | cons entry rest ih =>
    obtain ⟨k, v⟩ := entry
    by_cases here : k = key <;> simp [insert, here, ih]

theorem Entries.contains_insert_of_ne {α : Type} {key other : String} (ne : key ≠ other) (value : α)
    (entries : Entries α) : contains other (insert key value entries) = contains other entries := by
  rw [contains, contains, find?_insert_of_ne ne]

/-! ## The place of the registry -/

namespace Document

variable {layout : Layout} {root : Members}

/-- A place for the registry that is there, with the objects on the way to it. -/
theorem cases_of_registryValue {value : Json} (present : registryValue layout root = some value) :
    layout = .swagger2 ∧ Entries.find? "definitions" root = some value ∨
      layout = .openApi3 ∧ ∃ components, Entries.find? "components" root = some (.obj components) ∧
        Entries.find? "schemas" components = some value := by
  cases layout with
  | swagger2 => exact .inl ⟨rfl, present⟩
  | openApi3 =>
    obtain ⟨found, there, member⟩ := Option.bind_eq_some_iff.1 present
    cases found with
    | obj components => exact .inr ⟨rfl, components, there, member⟩
    | _ => cases member

theorem not_isBlocked_of_registryValue {value : Json}
    (present : registryValue layout root = some value) : ¬ IsBlocked layout root := by
  intro blocked
  rw [registryValue_of_isBlocked blocked] at present
  cases present

theorem sameAround_withRegistry {value : Json} (present : registryValue layout root = some value)
    (value' : Json) :
    Json.SameAround layout.path (.obj root) (.obj (withRegistry layout root value')) := by
  rcases cases_of_registryValue present with ⟨rfl, found⟩ | ⟨rfl, components, found, inner⟩
  · exact Json.sameAround_insert found trivial
  · simp only [withRegistry, found]
    exact Json.sameAround_insert found (Json.sameAround_insert inner trivial)

/-- Only the last value in the place counts. -/
theorem withRegistry_withRegistry {value : Json} (present : registryValue layout root = some value)
    (first second : Json) :
    withRegistry layout (withRegistry layout root first) second
      = withRegistry layout root second := by
  rcases cases_of_registryValue present with ⟨rfl, found⟩ | ⟨rfl, components, found, inner⟩
  · exact Entries.insert_insert ..
  · simp only [withRegistry, found, Entries.find?_insert_self, Entries.insert_insert]

/-- The guess of the layout does not depend on what stands in the place of the registry. -/
theorem detect_withRegistry {value : Json} (detected : Layout.detect root = layout)
    (present : registryValue layout root = some value) (value' : Json) :
    Layout.detect (withRegistry layout root value') = layout := by
  rcases cases_of_registryValue present with ⟨rfl, found⟩ | ⟨rfl, components, found, inner⟩
  · simp [withRegistry, Layout.detect, Entries.contains, Entries.find?_insert_self]
  · have noDefinitions : Entries.contains "definitions" root = false := by
      cases there : Entries.contains "definitions" root with
      | false => rfl
      | true =>
        rw [Layout.detect, there, if_pos rfl] at detected
        cases detected
    have apart : "components" ≠ "definitions" := by decide
    have schemas (value : Json) : Entries.contains "schemas"
        (Entries.insert "schemas" value components) = true := by
      rw [Entries.contains, Entries.find?_insert_self]
      rfl
    simp only [withRegistry, found, Layout.detect, Entries.contains_insert_of_ne apart,
      noDefinitions, Bool.false_eq_true, if_false, Entries.find?_insert_self, schemas, if_true,
      ite_self]

/-! ## Reading again -/

/-- The value in the place of the registry as it is written: definitions in their written form, and
no definitions for what is no mapping. -/
def registryForm (layout : Layout) : Json → Json
  | .obj schemas => .obj (schemas.map fun (name, schema) =>
      (name, (Node.ofJson layout schema).toJson))
  | _ => .obj []

theorem toMembers_definitionsOf (layout : Layout) (value : Json) :
    .obj (definitionsOf layout (some value)).toMembers = registryForm layout value := by
  cases value <;> simp [definitionsOf, Definitions.toMembers, registryForm, Function.comp_def]

theorem wellFormed_of_registryValue {value : Json} (wellFormed : (Json.obj root).WellFormed)
    (present : registryValue layout root = some value) : value.WellFormed := by
  rcases cases_of_registryValue present with ⟨-, found⟩ | ⟨-, components, found, inner⟩
  · exact (Json.wellFormed_obj_iff.1 wellFormed).2 _ (Entries.mem_of_find? found)
  · have outer := (Json.wellFormed_obj_iff.1 wellFormed).2 _ (Entries.mem_of_find? found)
    exact (Json.wellFormed_obj_iff.1 outer).2 _ (Entries.mem_of_find? inner)

/-- The definitions that are read of what was written of definitions. -/
theorem definitionsOf_registryForm {value : Json} (wellFormed : value.WellFormed) :
    definitionsOf layout (some (registryForm layout value)) = definitionsOf layout (some value) := by
  cases value with
  | obj schemas =>
    simp only [registryForm, definitionsOf, List.map_map]
    refine List.map_congr_left fun entry member => ?_
    have inner := (Json.wellFormed_obj_iff.1 wellFormed).2 entry member
    exact congrArg (entry.1, ·) (roundTrips entry.2 inner).node
  | _ => rfl

/-- A document without a place for the registry is written as it was read. -/
theorem toJson_of_registryValue_eq_none {document : Document}
    (read : ofJson (.obj root) = .ok document)
    (none : registryValue (Layout.detect root) root = none) :
    document.layout = Layout.detect root ∧ document.toJson = .obj root := by
  obtain rfl := Except.ok.inj read
  exact ⟨rfl, by simp [toJson, none, definitionsOf]⟩

/-- A document with a place for the registry is written with the definitions there. -/
theorem toJson_of_registryValue {document : Document} {value : Json}
    (read : ofJson (.obj root) = .ok document)
    (present : registryValue (Layout.detect root) root = some value) :
    document.layout = Layout.detect root ∧
      document.toJson = .obj (withRegistry (Layout.detect root) root
        (registryForm (Layout.detect root) value)) := by
  have free := not_isBlocked_of_registryValue present
  obtain rfl := Except.ok.inj read
  refine ⟨rfl, ?_⟩
  simp only [toJson, present, Option.isSome_some, if_true, registryValue_withRegistry free,
    Bool.true_or, withRegistry_withRegistry present, toMembers_definitionsOf]

end Document

open Document in
/-- **Documents survive reading and writing.** A mapping is read as a document. Reading what is
written of it gives the document again. What is written has the names of the mapping in the same
positions, at the top and on the way to the registry, and every value beside the way is the same. In
the place of the registry it has what was there in written form, and it has no place for it if there
was none. -/
theorem document_roundTrip {root : Members} (wellFormed : (Json.obj root).WellFormed) :
    ∃ document written, Document.ofJson (.obj root) = .ok document ∧
      document.toJson = .obj written ∧
      Document.ofJson document.toJson = .ok document ∧
      Json.SameAround document.layout.path (.obj root) document.toJson ∧
      registryValue document.layout written
        = (registryValue document.layout root).map (registryForm document.layout) := by
  obtain ⟨document, read⟩ : ∃ document, Document.ofJson (.obj root) = .ok document := ⟨_, rfl⟩
  cases present : registryValue (Layout.detect root) root with
  | none =>
    obtain ⟨layout, written⟩ := toJson_of_registryValue_eq_none read present
    refine ⟨document, root, read, written, by rwa [written], ?_, ?_⟩
    · rw [written]
      exact .refl _ _
    · rw [layout, present]
      rfl
  | some value =>
    obtain ⟨layout, written⟩ := toJson_of_registryValue read present
    have free := not_isBlocked_of_registryValue present
    refine ⟨document, _, read, written, ?_, ?_, ?_⟩
    · have again : Document.ofJson (.obj (withRegistry (Layout.detect root) root
          (registryForm (Layout.detect root) value))) = Document.ofJson (.obj root) := by
        simp only [Document.ofJson, detect_withRegistry rfl present,
          registryValue_withRegistry free, present, Option.isSome_some, if_true,
          withRegistry_withRegistry present,
          definitionsOf_registryForm (wellFormed_of_registryValue wellFormed present)]
      rw [written, again, read]
    · rw [layout, written]
      exact sameAround_withRegistry present _
    · rw [layout, registryValue_withRegistry free, present]
      rfl

/-- A mapping whose registry stands between two others and holds a bare name. -/
def Sample.sandwiched : Members :=
  [("openapi", .str "3.0.3"),
    ("components", .obj [("responses", .null),
      ("schemas", .obj [("Alias", .obj [("description", .str "d"), ("$ref", .str "Pet")]),
        ("Pet", .bool true)]), ("headers", .obj [])]),
    ("paths", .obj [])]

/-- The bare name is expanded and its members change places. The rest stands where it stood. -/
theorem document_roundTrip_sandwiched : (Json.obj Sample.sandwiched).WellFormed ∧
    ∃ document, Document.ofJson (.obj Sample.sandwiched) = .ok document ∧
      document.toJson = .obj [("openapi", .str "3.0.3"),
        ("components", .obj [("responses", .null),
          ("schemas", .obj [("Alias", .obj [("$ref", .str "#/components/schemas/Pet"),
            ("description", .str "d")]), ("Pet", .bool true)]), ("headers", .obj [])]),
        ("paths", .obj [])] ∧
      Document.ofJson document.toJson = .ok document := by
  have wellFormed : (Json.obj Sample.sandwiched).WellFormed := by
    simp [Sample.sandwiched, Json.WellFormed, Json.WellFormedMembers, Entries.Distinct]
  obtain ⟨document, written, read, -, again, -⟩ := document_roundTrip wellFormed
  refine ⟨wellFormed, document, read, ?_, again⟩
  obtain rfl := Except.ok.inj read
  rfl

end SchemaBundle
