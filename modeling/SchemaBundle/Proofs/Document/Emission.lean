import SchemaBundle.Proofs.Resolve.Session
import SchemaBundle.Proofs.Schema.Members

/-!
# What a document writes

A document is read from a mapping. Its registry then changes: definitions are put into it, or a
resolver puts fragments there. When the document is written, the pointer behind the `#` of the local
reference to a definition should select the definition.

It does so whatever stood in the place of the registry (`document_emits_iff`), but for one case: in
the later layout a `components` that is no mapping takes the place of the registry. Nothing of the
registry is written then, though `components` is not asked for when a definition is put there.
-/

namespace SchemaBundle

/-! ## The pointer of a definition -/

namespace Layout

/-- The segments that lead to the registry. -/
def path : Layout → List (List Char)
  | swagger2 => ["definitions".toList]
  | openApi3 => ["components".toList, "schemas".toList]

/-- The pointer to a definition: its local reference without the `#`. -/
def pointer (layout : Layout) (name : String) : String :=
  String.ofList ((layout.localRef name).toList.drop 1)

theorem segments?_pointer (layout : Layout) (name : String) :
    Pointer.segments? (layout.pointer name).toList = some (layout.path ++ [name.toList]) := by
  have last := Text.pieces_of_notMem (slash_notMem_escapeChars name.toList)
  have named := Pointer.unescapeChars_escapeChars name.toList
  cases layout with
  | swagger2 =>
    have noSlash : '/' ∉ "definitions".toList := by decide
    have cut := Text.pieces_append noSlash (Pointer.escapeChars name.toList)
    rw [last] at cut
    simpa [pointer, localRef, start, Pointer.escape, Pointer.segments?, path, named,
      Pointer.unescapeChars] using congrArg (List.map Pointer.unescapeChars) cut
  | openApi3 =>
    have noSlash : '/' ∉ "components".toList := by decide
    have noSlash' : '/' ∉ "schemas".toList := by decide
    have cut := Text.pieces_append noSlash
      ("schemas".toList ++ '/' :: Pointer.escapeChars name.toList)
    rw [Text.pieces_append noSlash', last] at cut
    simpa [pointer, localRef, start, Pointer.escape, Pointer.segments?, path, named,
      Pointer.unescapeChars] using congrArg (List.map Pointer.unescapeChars) cut

end Layout

/-! ## The place of the registry -/

namespace Document

variable {layout : Layout} {root : Members}

theorem child?_schemas (value : Json) :
    value.child? "schemas".toList = value.member? "schemas" := by
  cases value <;> rfl

theorem descend?_singleton (value : Json) (segment : List Char) :
    value.descend? [segment] = value.child? segment :=
  Option.bind_fun_some (value.child? segment)

/-- The pointer of a definition leads through the place of the registry. -/
theorem select?_pointer (layout : Layout) (root : Members) (name : String) :
    (Json.obj root).select? (layout.pointer name)
      = (registryValue layout root).bind (Json.child? name.toList) := by
  rw [Json.select?, Layout.segments?_pointer, Option.bind_some]
  cases layout with
  | swagger2 =>
    rw [Layout.path, List.singleton_append, Json.descend?, funext (descend?_singleton · _)]
    rfl
  | openApi3 =>
    rw [Layout.path, List.cons_append, List.singleton_append, Json.descend?, registryValue,
      Option.bind_assoc]
    refine Option.bind_congr fun components _ => ?_
    rw [Json.descend?, child?_schemas, funext (descend?_singleton · _)]

/-- In the later layout, `components` is there and is no mapping. -/
def IsBlocked (layout : Layout) (root : Members) : Prop :=
  layout = .openApi3 ∧ ∃ value, Entries.find? "components" root = some value ∧ value.isObj = false

theorem registryValue_withRegistry (free : ¬ IsBlocked layout root) (value : Json) :
    registryValue layout (withRegistry layout root value) = some value := by
  cases layout with
  | swagger2 => exact Entries.find?_insert_self ..
  | openApi3 =>
    simp only [withRegistry, registryValue]
    split
    · simp [Entries.find?_insert_self, Json.member?, Entries.find?]
    · simp [Entries.find?_insert_self, Json.member?]
    · rename_i value' noMapping present
      refine absurd ⟨rfl, value', present, ?_⟩ free
      cases value' with
      | obj components => exact absurd rfl (noMapping components)
      | _ => rfl

theorem registryValue_of_isBlocked (blocked : IsBlocked layout root) :
    registryValue layout root = none := by
  obtain ⟨rfl, value, present, noMapping⟩ := blocked
  cases value <;> simp_all [registryValue, Json.member?, Json.isObj]

theorem withRegistry_of_isBlocked (blocked : IsBlocked layout root) (value : Json) :
    withRegistry layout root value = root := by
  obtain ⟨rfl, value', present, noMapping⟩ := blocked
  cases value' <;> simp_all [withRegistry, Json.isObj]

/-- Another value in the place of the registry leaves the place as it is. -/
theorem isBlocked_withRegistry (value : Json) :
    IsBlocked layout (withRegistry layout root value) ↔ IsBlocked layout root := by
  constructor
  · intro blocked
    by_contra free
    have none := registryValue_of_isBlocked blocked
    rw [registryValue_withRegistry free] at none
    cases none
  · intro blocked
    rwa [withRegistry_of_isBlocked blocked]

end Document

/-! ## Writing -/

theorem Definitions.find?_toMembers {definitions : Definitions} (distinct : definitions.Distinct)
    {name : String} {node : Node} (member : (name, node) ∈ definitions) :
    Entries.find? name definitions.toMembers = some node.toJson := by
  obtain ⟨i, found⟩ := List.mem_iff_getElem?.1 member
  have keys : Entries.keys definitions.toMembers = Entries.keys definitions := by
    simp [Definitions.toMembers, Entries.keys, Function.comp_def]
  refine Entries.find?_of_getElem? (i := i) ?_ ?_
  · rwa [Entries.Distinct, keys]
  · simp [Definitions.toMembers, found]

namespace Document

variable {document : Document}

/-- What is read is blocked as what it is read from. -/
theorem isBlocked_of_ofJson {root : Members} (read : ofJson (.obj root) = .ok document) :
    IsBlocked document.layout document.rest ↔ IsBlocked document.layout root := by
  obtain rfl := Except.ok.inj read
  dsimp only
  split
  · exact isBlocked_withRegistry .null
  · exact Iff.rfl

/-- Unless its place is blocked, a definition is written where its pointer leads. -/
theorem select?_toJson (free : ¬ IsBlocked document.layout document.rest)
    (distinct : document.definitions.Distinct) {name : String} {node : Node}
    (member : (name, node) ∈ document.definitions) :
    document.toJson.select? (document.layout.pointer name) = some node.toJson := by
  have some : document.definitions.isEmpty = false := by
    rw [List.isEmpty_eq_false_iff]
    exact List.ne_nil_of_mem member
  have written : document.toJson = .obj (withRegistry document.layout document.rest
      (.obj document.definitions.toMembers)) := by
    simp [toJson, some]
  rw [written, select?_pointer, registryValue_withRegistry free, Option.bind_some, Json.child?,
    String.ofList_toList]
  exact Definitions.find?_toMembers distinct member

theorem toJson_of_isBlocked (blocked : IsBlocked document.layout document.rest) :
    document.toJson = .obj document.rest := by
  unfold toJson
  rw [withRegistry_of_isBlocked blocked]
  split <;> rfl

/-- Where the place of the registry is blocked, what is read is written, whatever is in the
registry. -/
theorem rest_of_isBlocked {root : Members} (read : ofJson (.obj root) = .ok document)
    (blocked : IsBlocked document.layout root) : document.rest = root := by
  obtain rfl := Except.ok.inj read
  simp only at blocked ⊢
  simp [registryValue_of_isBlocked blocked]

end Document

/-! ## What puts definitions into a registry -/

namespace Pass

/-- The registry got new names at its end at most, and no name comes twice that did not before. -/
structure Extends (p q : Pass) : Prop where
  keys : Entries.keys p.definitions <+: Entries.keys q.definitions
  distinct : p.definitions.Distinct → q.definitions.Distinct

variable {p q s : Pass}

theorem extends_of_keys (h : Entries.keys q.definitions = Entries.keys p.definitions) :
    p.Extends q where
  keys := h ▸ List.prefix_rfl
  distinct distinct := by rwa [Entries.Distinct, h]

theorem Extends.trans (h : p.Extends q) (h' : q.Extends s) : p.Extends s where
  keys := h.keys.trans h'.keys
  distinct distinct := h'.distinct (h.distinct distinct)

theorem Extends.refl (p : Pass) : p.Extends p :=
  extends_of_keys rfl

theorem extends_insert (name : String) (node : Node)
    (h : q.definitions = Entries.insert name node p.definitions) : p.Extends q where
  keys := by
    rw [h, Entries.keys_insert]
    split
    · exact List.prefix_rfl
    · exact List.prefix_append ..
  distinct distinct := h ▸ Entries.distinct_insert distinct name node

end Pass

namespace Walk

variable {setting : Setting} {visit : Visit} {scope : Scope} {p q : Pass}

theorem Merging.extends {reference : String} {outcome : Except ResolveError String}
    (visits : ∀ scope node (p : Pass), p.Extends (visit scope node p).2)
    (h : Merging setting visit scope reference p outcome q) : p.Extends q := by
  cases h with
  | @merged t node node' natural name s located outside unnamed read placed visited =>
    have walked := visits (.external t.location) node
      (((p.marked t.key).loaded setting.fetcher t.location).recorded t.key name)
    rw [visited] at walked
    have inserted : s.Extends
        (p.released t.key ((s.reported t.location node').inserted t name node')) := by
      refine Pass.extends_insert name node' ?_
      unfold Pass.released
      split <;> rfl
    have opened : p.Extends
        (((p.marked t.key).loaded setting.fetcher t.location).recorded t.key name) :=
      Pass.extends_of_keys rfl
    exact opened.trans (walked.trans inserted)
  | _ => exact Pass.extends_of_keys rfl

theorem Follows.extends {r r' : RefNode}
    (visits : ∀ scope node (p : Pass), p.Extends (visit scope node p).2)
    (h : Follows setting visit scope r p r' q) : p.Extends q := by
  cases h with
  | kept stays =>
    refine Pass.extends_of_keys ?_
    unfold Pass.checked
    split
    · rfl
    · split <;> rfl
  | resolved leaves merging => exact merging.extends visits
  | failed leaves merging => exact (merging.extends visits).trans (Pass.extends_of_keys rfl)

/-- The law that the registry is extended. It asks nothing of the cache. -/
def extending (setting : Setting) : WalkLaw setting where
  Inv _ := True
  Step _ p q := p.Extends q
  Fit _ := True
  Done _ _ _ _ := True
  Cut _ _ := True
  step_nil := .refl
  step_append := .trans
  done_mono _ _ := trivial
  cut_mono _ _ := trivial
  tooDeep _ _ := ⟨trivial, Pass.extends_of_keys rfl, trivial⟩
  follows visits _ _ h :=
    ⟨trivial, h.extends fun _ _ _ => (visits trivial trivial).2.1, trivial⟩

variable (setting)

theorem resolveNode_extends (node : Node) (p : Pass) :
    p.Extends (resolveNode setting node p).2 :=
  ((extending setting).walkNode _ .root node trivial p trivial).2.1

theorem resolveField_extends (field : Field) (p : Pass) :
    p.Extends (resolveField setting field p).2 :=
  have fit : (extending setting).Fit .root := trivial
  ((extending setting).walkField _ fit field p trivial).2.1

/-- A definition goes back to its place, which has its name still. -/
theorem resolveAt_extends (position : Nat) (p : Pass) :
    p.Extends (resolveAt setting position p).2 := by
  rw [resolveAt, run_bind, run_get]
  dsimp only
  cases found : p.definitions[position]? with
  | none => exact .refl p
  | some entry =>
    obtain ⟨name, node⟩ := entry
    dsimp only
    rw [run_bind, run_modify, run_bind, run_modify]
    let hollow : Pass := { p with
      definitions := p.definitions.set position (name, .plain .null) }
    have taken : p.Extends hollow := Pass.extends_of_keys (Entries.keys_set found _)
    have walked := resolveNode_extends setting node hollow
    have still : (Entries.keys (resolveNode setting node hollow).2.definitions)[position]?
        = some name := by
      obtain ⟨more, keys⟩ := taken.keys.trans walked.keys
      have here : (Entries.keys p.definitions)[position]? = some name := by
        simp [Entries.keys, found]
      rw [← keys, List.getElem?_append_left (List.getElem?_eq_some_iff.1 here).1, here]
    rw [Entries.keys, List.getElem?_map] at still
    obtain ⟨entry, found', rfl⟩ := Option.map_eq_some_iff.1 still
    exact taken.trans (walked.trans (Pass.extends_of_keys (Entries.keys_set found' _)))

theorem resolveDefinitions_extends (p : Pass) :
    p.Extends (resolveDefinitions setting p).2 := by
  rw [resolveDefinitions, run_bind, run_get]
  dsimp only
  induction List.range p.definitions.length generalizing p with
  | nil => exact .refl p
  | cons position rest ih =>
    rw [List.forM, run_bind]
    exact (resolveAt_extends setting position p).trans (ih _)

end Walk

theorem Request.run_extends (setting : Setting) (request : Request) (p : Pass) :
    p.Extends (request.run setting p).2 := by
  cases request with
  | node a =>
    cases a with
    | none => exact .refl p
    | some a => exact Walk.resolveNode_extends setting a p
  | field a =>
    cases a with
    | none => exact .refl p
    | some a => exact Walk.resolveField_extends setting a p
  | registry => exact Walk.resolveDefinitions_extends setting p

/-! ## Documents whose registry changes -/

/-- A change of a registry. -/
inductive RegistryChange
  /-- A definition is put there, in the place of one that has its name. -/
  | define (name : String) (node : Node)
  /-- A resolver is called, with the fetcher and the cache that it has then. -/
  | call (fetcher : Fetcher) (cache : Cache) (made : Call)

/-- The definitions after a change. -/
def RegistryChange.apply (layout : Layout) (definitions : Definitions) :
    RegistryChange → Definitions
  | .define name node => Entries.insert name node definitions
  | .call fetcher cache made =>
    (made.turn layout fetcher (Pass.start definitions cache)).after.definitions

namespace Document

/-- The document after changes of its registry, one after the other. -/
def changed (document : Document) (changes : List RegistryChange) : Document :=
  { document with
    definitions := changes.foldl (RegistryChange.apply document.layout) document.definitions }

theorem distinct_of_registryValue {layout : Layout} {root members : Members}
    (wellFormed : (Json.obj root).WellFormed)
    (found : registryValue layout root = some (.obj members)) : members.Distinct := by
  have inner {key : String} {root : Members} {value : Json}
      (wellFormed : (Json.obj root).WellFormed)
      (found : Entries.find? key root = some value) : value.WellFormed :=
    (Json.wellFormed_obj_iff.1 wellFormed).2 _ (Entries.mem_of_find? found)
  cases layout with
  | swagger2 => exact (inner wellFormed found).1
  | openApi3 =>
    obtain ⟨components, present, found⟩ := Option.bind_eq_some_iff.1 found
    cases components with
    | obj components => exact (inner (inner wellFormed present) found).1
    | _ => cases found

theorem distinct_apply {layout : Layout} {definitions : Definitions}
    (distinct : definitions.Distinct) (change : RegistryChange) :
    (change.apply layout definitions).Distinct := by
  cases change with
  | define name node => exact Entries.distinct_insert distinct name node
  | call fetcher cache made =>
    have begun := made.definitions_begin (Pass.start definitions cache)
    have run := made.request.run_extends ⟨layout, fetcher, made.options⟩
      (made.begin (Pass.start definitions cache))
    exact run.distinct (begun ▸ distinct)

theorem distinct_changed {document : Document} (distinct : document.definitions.Distinct)
    (changes : List RegistryChange) : (document.changed changes).definitions.Distinct := by
  show (changes.foldl (RegistryChange.apply document.layout) document.definitions).Distinct
  generalize document.definitions = definitions at distinct ⊢
  induction changes generalizing definitions with
  | nil => exact distinct
  | cons change rest ih => exact ih _ (distinct_apply distinct change)

/-- The definitions that are read have the names of the members. -/
theorem distinct_of_ofJson {root : Members} (wellFormed : (Json.obj root).WellFormed)
    {document : Document} (read : ofJson (.obj root) = .ok document) :
    document.definitions.Distinct := by
  obtain rfl := Except.ok.inj read
  dsimp only
  cases found : registryValue (Layout.detect root) root with
  | none => exact List.nodup_nil
  | some value =>
    cases value with
    | obj members =>
      have distinct := distinct_of_registryValue wellFormed found
      simpa [definitionsOf, Entries.Distinct, Entries.keys, Function.comp_def] using distinct
    | _ => exact List.nodup_nil

end Document

/-- **Every definition is written where its local reference leads, unless the place is blocked.**
A document is read from a mapping, and its registry is changed by definitions put there and by calls
of resolvers. Then the pointer of each definition selects what the definition is written as, exactly
if the place of the registry is not blocked: a `components` that is no mapping, in the layout that
keeps its registry there. Where it is blocked, the mapping is written as it was read. -/
theorem document_emits_iff {root : Members} (wellFormed : (Json.obj root).WellFormed)
    {document : Document} (read : Document.ofJson (.obj root) = .ok document)
    (changes : List RegistryChange) :
    let changed := document.changed changes
    (∀ {name : String} {node : Node}, (name, node) ∈ changed.definitions →
      (changed.toJson.select? (changed.layout.pointer name) = some node.toJson ↔
        ¬ Document.IsBlocked document.layout root)) ∧
    (Document.IsBlocked document.layout root → changed.toJson = .obj root) := by
  intro changed
  have written (blocked : Document.IsBlocked document.layout root) :
      changed.toJson = .obj root := by
    have same := Document.isBlocked_of_ofJson read
    rw [← Document.rest_of_isBlocked read blocked]
    exact Document.toJson_of_isBlocked (same.2 blocked)
  refine ⟨fun {name node} member => ⟨fun selected blocked => ?_, fun free => ?_⟩, written⟩
  · have none := Document.registryValue_of_isBlocked blocked
    rw [written blocked, Document.select?_pointer, show changed.layout = document.layout from rfl,
      none] at selected
    cases selected
  · have distinct := Document.distinct_changed (Document.distinct_of_ofJson wellFormed read) changes
    refine Document.select?_toJson ?_ distinct member
    rwa [← Document.isBlocked_of_ofJson read] at free

/-- A mapping without a registry. -/
def Sample.plain : Members :=
  [("openapi", .str "3.0.3"), ("components", .obj [])]

/-- A definition with a slash in its name is put there, then a call merges two more. -/
def Sample.changes : List RegistryChange :=
  [.define "a/~b" (.plain (.bool true)),
    .call fetcher (Cache.empty root)
      ⟨.default, true, .node (some (.ref ⟨"pets.yaml#/definitions/Pet", .relativeFile, []⟩))⟩]

/-- Three definitions are written, and selected by their pointers. -/
theorem document_emits_iff_sample : (Json.obj Sample.plain).WellFormed ∧
    ∃ document, Document.ofJson (.obj Sample.plain) = .ok document ∧
      let changed := document.changed Sample.changes
      Entries.keys changed.definitions = ["a/~b", "Tag", "Pet"] ∧
      changed.layout.pointer "a/~b" = "/components/schemas/a~1~0b" ∧
      ∀ {name : String} {node : Node}, (name, node) ∈ changed.definitions →
        changed.toJson.select? (changed.layout.pointer name) = some node.toJson := by
  have wellFormed : (Json.obj Sample.plain).WellFormed := by
    simp [Json.WellFormed, Json.WellFormedMembers, Sample.plain, Entries.Distinct]
  obtain ⟨document, read⟩ : ∃ document, Document.ofJson (.obj Sample.plain) = .ok document :=
    ⟨_, rfl⟩
  have free : ¬ Document.IsBlocked document.layout Sample.plain := by
    rintro ⟨-, value, found, noMapping⟩
    obtain rfl : Json.obj [] = value := Option.some.inj found
    cases noMapping
  refine ⟨wellFormed, document, read, ?_, ?_, fun member =>
    ((document_emits_iff wellFormed read Sample.changes).1 member).2 free⟩
  · obtain rfl := Except.ok.inj read
    decide +kernel
  · obtain rfl := Except.ok.inj read
    decide +kernel

/-- A mapping whose `components` is `null`. -/
def Sample.blocked : Members :=
  [("openapi", .str "3.0.3"), ("components", .null)]

/-- A definition that is put there is not written. -/
theorem document_loses : (Json.obj Sample.blocked).WellFormed ∧
    ∃ document, Document.ofJson (.obj Sample.blocked) = .ok document ∧
      let changed := document.changed [.define "Pet" (.plain (.bool true))]
      ("Pet", .plain (.bool true)) ∈ changed.definitions ∧
      changed.toJson = .obj Sample.blocked ∧
      changed.toJson.select? (changed.layout.pointer "Pet") = none := by
  refine ⟨?_, _, rfl, ?_, rfl, ?_⟩
  · simp [Json.WellFormed, Json.WellFormedMembers, Sample.blocked, Entries.Distinct]
  · exact List.mem_singleton_self _
  · exact Document.select?_pointer .openApi3 Sample.blocked "Pet"

end SchemaBundle
