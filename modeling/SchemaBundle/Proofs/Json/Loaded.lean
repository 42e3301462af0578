import Mathlib.Data.List.Induction
import Mathlib.Data.List.Perm.Subperm
import SchemaBundle.Cache
import SchemaBundle.Proofs.Schema.Members

/-!
# What is loaded

A mapping becomes an object by inserting its entries one after the other, so an object that was
loaded has no name twice; and a whole number is loaded only if it is in the range of the reader. The
same holds of any value that a pointer selects in what was loaded (`Json.Loadable`). Whatever holds
of scalars and is kept by the building of lists, mappings and tagged values holds of every value
that is read (`Yaml.Value.IsBuilt.of_read`).
-/

namespace SchemaBundle

/-! ## Objects -/

namespace Entries

variable {α : Type} {P : α → Prop} {pairs : List (String × α)}

/-- What is inserted one by one is distinct, and has no values but those of the pairs. -/
theorem ofList_induction (h : ∀ pair ∈ pairs, P pair.2) :
    (ofList pairs).Distinct ∧ ∀ entry ∈ ofList pairs, P entry.2 := by
  have onto (entries : Entries α) (distinct : entries.Distinct)
      (all : ∀ entry ∈ entries, P entry.2) :
      (pairs.foldl (fun entries pair => insert pair.1 pair.2 entries) entries).Distinct ∧
        ∀ entry ∈ pairs.foldl (fun entries pair => insert pair.1 pair.2 entries) entries,
          P entry.2 := by
    induction pairs generalizing entries with
    | nil => exact ⟨distinct, all⟩
    | cons pair rest ih =>
      obtain ⟨first, later⟩ := List.forall_mem_cons.1 h
      refine ih later _ (distinct_insert distinct ..) fun entry member => ?_
      rcases mem_insert member with rfl | member
      · exact first
      · exact all entry member
  exact onto [] List.nodup_nil (by simp)

theorem distinct_ofList (pairs : List (String × α)) : (ofList pairs).Distinct :=
  (ofList_induction (P := fun _ => True) fun _ _ => trivial).1

/-- Inserting distinct entries one by one keeps their order. -/
theorem ofList_of_distinct {entries : Entries α} (distinct : entries.Distinct) :
    ofList entries = entries := by
  have onto (done rest : Entries α) (distinct : (done ++ rest).Distinct) :
      rest.foldl (fun entries pair => insert pair.1 pair.2 entries) done = done ++ rest := by
    induction rest generalizing done with
    | nil => rw [List.foldl_nil, List.append_nil]
    | cons pair rest ih =>
      have fresh : pair.1 ∉ keys done := by
        rw [Distinct, keys, List.map_append, List.nodup_append] at distinct
        exact fun known => distinct.2.2 _ known _ (by simp) rfl
      rw [List.foldl_cons, insert_of_notMem fresh, ih _ (by rwa [List.append_assoc]),
        List.append_assoc]
      rfl
  exact onto [] entries distinct

theorem ofList_concat (pairs : List (String × α)) (pair : String × α) :
    ofList (pairs ++ [pair]) = insert pair.1 pair.2 (ofList pairs) := by
  rw [ofList, List.foldl_append]
  rfl

/-- Each name has the place of its first pair. -/
theorem keys_ofList (pairs : List (String × α)) : keys (ofList pairs) = (keys pairs).eraseDups := by
  induction pairs using List.reverseRecOn with
  | nil => rfl
  | append_singleton pairs pair ih =>
    have last : keys (pairs ++ [pair]) = keys pairs ++ [pair.1] := List.map_append
    rw [ofList_concat, keys_insert, ih, last, List.eraseDups_append]
    by_cases known : pair.1 ∈ keys pairs <;>
      simp [known, List.removeAll, List.mem_eraseDups, List.eraseDups_cons]

/-- Each name has the value of its last pair. -/
theorem find?_ofList (pairs : List (String × α)) (name : String) :
    find? name (ofList pairs) = find? name pairs.reverse := by
  induction pairs using List.reverseRecOn with
  | nil => rfl
  | append_singleton pairs pair ih =>
    obtain ⟨k, v⟩ := pair
    rw [ofList_concat, List.reverse_append]
    by_cases same : k = name
    · subst same
      simpa [find?] using find?_insert_self k v (ofList pairs)
    · simpa [find?, same, ← ih] using find?_insert_of_ne same v (ofList pairs)

/-- No pair is lost exactly if no name comes twice. -/
theorem length_ofList_eq_iff {pairs : List (String × α)} :
    (ofList pairs).length = pairs.length ↔ Distinct pairs := by
  refine ⟨fun same => ?_, fun distinct => by rw [ofList_of_distinct distinct]⟩
  have sub : keys (ofList pairs) ⊆ keys pairs := fun name member => by
    rwa [keys_ofList, List.mem_eraseDups] at member
  have names : (keys pairs).length = (keys (ofList pairs)).length := by
    rw [keys, keys, List.length_map, List.length_map, same]
  have distinct : (keys (ofList pairs)).Nodup := distinct_ofList pairs
  exact ((distinct.subperm sub).perm_of_length_le (Nat.le_of_eq names)).nodup distinct

end Entries

/-! ## Values that can be loaded -/

namespace Json

mutual

/-- No object in the value has two members of one name, and its whole numbers are in range. -/
def Loadable : Json → Prop
  | .int n => Yaml.Core.isInRange n = true
  | .arr items => LoadableItems items
  | .obj members => Entries.Distinct members ∧ LoadableMembers members
  | .null | .bool _ | .float _ | .str _ => True

/-- Every item can be loaded. -/
def LoadableItems : List Json → Prop
  | [] => True
  | x :: xs => Loadable x ∧ LoadableItems xs

/-- Every member's value can be loaded. -/
def LoadableMembers : List (String × Json) → Prop
  | [] => True
  | (_, x) :: xs => Loadable x ∧ LoadableMembers xs

end

theorem loadable_arr_iff {items : List Json} :
    (Json.arr items).Loadable ↔ ∀ item ∈ items, item.Loadable := by
  rw [Loadable]
  induction items with
  | nil => simp [LoadableItems]
  | cons item rest ih => simp [LoadableItems, ih]

theorem loadableMembers_iff {members : Members} :
    LoadableMembers members ↔ ∀ entry ∈ members, entry.2.Loadable := by
  induction members with
  | nil => simp [LoadableMembers]
  | cons entry rest ih => simp [LoadableMembers, ih]

theorem loadable_obj_iff {members : Members} :
    (Json.obj members).Loadable ↔ members.Distinct ∧ ∀ entry ∈ members, entry.2.Loadable := by
  rw [Loadable, loadableMembers_iff]

mutual

theorem Loadable.wellFormed : ∀ {value : Json} (_ : value.Loadable), value.WellFormed
  | .null, _ | .bool _, _ | .int _, _ | .float _, _ | .str _, _ => trivial
  | .arr _, h => loadableItems_wellFormed h
  | .obj _, h => ⟨h.1, loadableMembers_wellFormed h.2⟩

theorem loadableItems_wellFormed : ∀ {items : List Json} (_ : LoadableItems items),
    WellFormedItems items
  | [], _ => trivial
  | _ :: _, h => ⟨h.1.wellFormed, loadableItems_wellFormed h.2⟩

theorem loadableMembers_wellFormed : ∀ {members : List (String × Json)}
    (_ : LoadableMembers members), WellFormedMembers members
  | [], _ => trivial
  | _ :: _, h => ⟨h.1.wellFormed, loadableMembers_wellFormed h.2⟩

end

end Json

namespace Yaml

/-! ## Numbers in range -/

mutual

/-- The whole numbers in a value are in range. -/
def Value.InRange : Value → Prop
  | .number (.int n) => Core.isInRange n = true
  | .sequence items => Value.ItemsInRange items
  | .mapping entries => Value.EntriesInRange entries
  | .tagged _ value => Value.InRange value
  | .null | .bool _ | .str _ | .number _ => True

/-- The whole numbers in values are in range. -/
def Value.ItemsInRange : List Value → Prop
  | [] => True
  | value :: rest => Value.InRange value ∧ Value.ItemsInRange rest

/-- The whole numbers in the values of entries are in range. -/
def Value.EntriesInRange : List (Value × Value) → Prop
  | [] => True
  | (_, value) :: rest => Value.InRange value ∧ Value.EntriesInRange rest

end

namespace Value

/-- Null, a truth value, a number in range or a string. -/
def IsScalar : Value → Prop
  | .number (.int n) => Core.isInRange n = true
  | .null | .bool _ | .str _ | .number _ => True
  | .sequence _ | .mapping _ | .tagged _ _ => False

theorem IsScalar.inRange {value : Value} (h : value.IsScalar) : value.InRange := by
  cases value with
  | number n => cases n <;> exact h
  | sequence | mapping | tagged => exact h.elim
  | _ => trivial

mutual

theorem loadable_toJson : ∀ (value : Value) (_ : value.InRange), value.toJson.Loadable
  | .null, _ | .bool _, _ | .str _, _ => trivial
  | .number (.int _), h => h
  | .number (.float _), _ | .number (.infinity _), _ | .number .notANumber, _ => trivial
  | .sequence items, h => Json.loadable_arr_iff.2 (loadable_itemsToJson items h)
  | .mapping entries, h => Json.loadable_obj_iff.2
    (Entries.ofList_induction (P := Json.Loadable) (loadable_entriesToJson entries h))
  | .tagged _ value, h => loadable_toJson value h

theorem loadable_itemsToJson : ∀ (items : List Value) (_ : ItemsInRange items),
    ∀ item ∈ itemsToJson items, item.Loadable
  | [], _ => by simp [itemsToJson]
  | value :: rest, h =>
    List.forall_mem_cons.2 ⟨loadable_toJson value h.1, loadable_itemsToJson rest h.2⟩

theorem loadable_entriesToJson : ∀ (entries : List (Value × Value)) (_ : EntriesInRange entries),
    ∀ entry ∈ entriesToJson entries, entry.2.Loadable
  | [], _ => by simp [entriesToJson]
  | (_, value) :: rest, h =>
    List.forall_mem_cons.2 ⟨loadable_toJson value h.1, loadable_entriesToJson rest h.2⟩

end

theorem itemsInRange_iff {items : List Value} :
    ItemsInRange items ↔ ∀ item ∈ items, item.InRange := by
  induction items with
  | nil => simp [ItemsInRange]
  | cons item rest ih => simp [ItemsInRange, ih]

theorem entriesInRange_iff {entries : List (Value × Value)} :
    EntriesInRange entries ↔ ∀ entry ∈ entries, entry.2.InRange := by
  induction entries with
  | nil => simp [EntriesInRange]
  | cons entry rest ih => simp [EntriesInRange, ih]

end Value

/-! ## Scalars -/

namespace Core

theorem isScalar_of_integerValue? {text : List Char} {value : Value}
    (h : integerValue? text = some (.ok value)) : value.IsScalar := by
  unfold integerValue? at h
  split at h
  · split_ifs at h with inRange
    · obtain rfl := Except.ok.inj (Option.some.inj h)
      exact inRange
    · cases h
  · cases h

theorem isScalar_of_float {x : Number} {text : List Char} (h : float? text = some x) :
    (Value.number x).IsScalar := by
  have ofMap {found : Option Binary64} (h : found.map Number.float = some x) :
      (Value.number x).IsScalar := by
    obtain ⟨y, -, rfl⟩ := Option.map_eq_some_iff.1 h
    trivial
  unfold float? at h
  dsimp only at h
  split_ifs at h
  · exact Option.some.inj h ▸ trivial
  · exact Option.some.inj h ▸ trivial
  · exact Option.some.inj h ▸ trivial
  · split at h <;> exact ofMap h

theorem isScalar_of_untagged {text : List Char} {value : Value} (h : untagged text = .ok value) :
    value.IsScalar := by
  unfold untagged at h
  split at h
  · exact Except.ok.inj h ▸ trivial
  · split at h
    · exact Except.ok.inj h ▸ trivial
    · rename_i found
      exact isScalar_of_integerValue? (found.trans (congrArg some h))
    · split at h
      · rename_i found
        split_ifs at found
        exact Except.ok.inj h ▸ isScalar_of_float found
      · exact Except.ok.inj h ▸ trivial

theorem isScalar_of_scalar {tag : Option String} {plain : Bool} {text : List Char} {value : Value}
    (h : scalar tag plain text = .ok value) : value.IsScalar := by
  unfold scalar at h
  split at h
  · split at h
    · exact isScalar_of_untagged h
    · exact Except.ok.inj h ▸ trivial
  · split_ifs at h
    · split at h
      · exact Except.ok.inj h ▸ trivial
      · cases h
    · cases found : integerValue? text with
      | none =>
        rw [found] at h
        cases h
      | some result =>
        rw [found] at h
        exact isScalar_of_integerValue? (found.trans (congrArg some h))
    · split at h
      · rename_i found
        exact Except.ok.inj h ▸ isScalar_of_float found
      · cases h
    · exact Except.ok.inj h ▸ trivial
    · exact Except.ok.inj h ▸ trivial

end Core

/-! ## Building -/

/-- A property that scalars have and that building keeps. No two keys of a mapping are equal. -/
structure Value.IsBuilt (P : Value → Prop) : Prop where
  scalar : ∀ {value}, Value.IsScalar value → P value
  sequence : ∀ {items}, (∀ item ∈ items, P item) → P (.sequence items)
  mapping : ∀ {entries : List (Value × Value)}, (∀ entry ∈ entries, P entry.1 ∧ P entry.2) →
    (entries.Pairwise fun earlier later => later.1.eqv earlier.1 = false) → P (.mapping entries)
  tagged : ∀ {tag value}, P value → P (.tagged tag value)

section Property

variable {P : Value → Prop}

theorem Value.IsBuilt.withTag (h : Value.IsBuilt P) {tag : Option String} {value value' : Value}
    (built : P value) (tagged : Yaml.withTag tag value = .ok value') : P value' := by
  unfold Yaml.withTag at tagged
  split at tagged
  · exact Except.ok.inj tagged ▸ built
  · cases tagged
  · exact Except.ok.inj tagged ▸ h.tagged built

theorem Value.IsBuilt.scalarValue (h : Value.IsBuilt P) {tag : Option String} {plain : Bool}
    {text : String} {value : Value} (read : Yaml.scalarValue tag plain text = .ok value) :
    P value := by
  unfold Yaml.scalarValue at read
  split at read
  · cases found : Core.scalar none plain text.toList with
    | error e =>
      rw [found] at read
      cases read
    | ok inner =>
      rw [found] at read
      exact h.withTag (h.scalar (Core.isScalar_of_scalar found)) read
  · exact h.scalar (Core.isScalar_of_scalar read)

end Property

/-- Whatever a builder gives has a property. -/
def Gives {α : Type} (P : α → Prop) (builder : BuildM α) : Prop :=
  ∀ n x n', builder.run n = .ok (x, n') → P x

namespace Gives

variable {α β : Type} {P : α → Prop} {Q : β → Prop}

theorem bind {builder : BuildM α} {next : α → BuildM β} (first : Gives P builder)
    (second : ∀ x, P x → Gives Q (next x)) : Gives Q (builder >>= next) := by
  intro n y n' h
  rw [StateT.run_bind] at h
  cases result : builder.run n with
  | error e =>
    rw [result] at h
    cases h
  | ok found =>
    rw [result] at h
    exact second found.1 (first n found.1 found.2 result) found.2 y n' h

theorem pure {x : α} (h : P x) : Gives P (Pure.pure x) := by
  rintro n y n' ⟨⟩
  exact h

theorem lift {result : Except YamlError α} (h : ∀ x, result = .ok x → P x) :
    Gives P (liftM result : BuildM α) := by
  intro n y n' ran
  cases result with
  | error e => cases ran
  | ok x =>
    obtain ⟨rfl, rfl⟩ := Prod.mk.inj (Except.ok.inj ran)
    exact h x rfl

theorem throw {e : YamlError} : Gives P (throw e : BuildM α) :=
  fun _ _ _ h => nomatch h

theorem mapM {γ : Type} {builder : γ → BuildM α} (h : ∀ x, Gives P (builder x)) (xs : List γ) :
    Gives (fun ys => ∀ y ∈ ys, P y) (xs.mapM builder) := by
  induction xs with
  | nil => exact pure (by simp)
  | cons x xs ih =>
    rw [List.mapM_cons]
    exact (h x).bind fun y first => ih.bind fun ys others =>
      pure (List.forall_mem_cons.2 ⟨first, others⟩)

end Gives

/-! The recursion of `build` is on the room behind an action, and has no equations but by
computation. -/

section Build

variable {tree : Tree} {limit room : ℕ}

theorem build_scalar (tag : Option String) (plain : Bool) (text : String) :
    build tree limit room (.scalar tag plain text) = liftM (scalarValue tag plain text) := by
  funext n
  cases room <;> (delta build; rfl)

theorem build_sequence (tag : Option String) (items : List Node) :
    build tree limit (room + 1) (.sequence tag items) = (do
      withTag tag (.sequence (← items.mapM (build tree limit room)))) := by
  funext n
  delta build
  rfl

theorem build_mapping (tag : Option String) (entries : List (Node × Node)) :
    build tree limit (room + 1) (.mapping tag entries) = (do
      withTag tag (.mapping (← buildEntries (build tree limit room) entries []))) := by
  funext n
  delta build
  rfl

/-- Without room no collection is built. -/
theorem build_sequence_zero (tag : Option String) (items : List Node) :
    build tree limit 0 (.sequence tag items) = throw .tooDeep := by
  funext n
  delta build
  rfl

theorem build_mapping_zero (tag : Option String) (entries : List (Node × Node)) :
    build tree limit 0 (.mapping tag entries) = throw .tooDeep := by
  funext n
  delta build
  rfl

variable {P : Value → Prop}

/-- The entries of a mapping have a property, and their keys differ. -/
theorem gives_buildEntries {builder : Node → BuildM Value} (h : ∀ node, Gives P (builder node))
    (entries : List (Node × Node)) {done : List (Value × Value)}
    (before : ∀ entry ∈ done, P entry.1 ∧ P entry.2)
    (differ : done.Pairwise fun earlier later => later.1.eqv earlier.1 = false) :
    Gives (fun built => (∀ entry ∈ built, P entry.1 ∧ P entry.2) ∧
      built.Pairwise fun earlier later => later.1.eqv earlier.1 = false)
      (buildEntries builder entries done) := by
  induction entries generalizing done with
  | nil => exact .pure ⟨before, differ⟩
  | cons entry rest ih =>
    rw [buildEntries]
    refine (h entry.1).bind fun key isKey => ?_
    split
    · exact .throw
    · rename_i new
      refine (h entry.2).bind fun value isValue => ih ?_ ?_
      · rw [List.forall_mem_append, List.forall_mem_singleton]
        exact ⟨before, isKey, isValue⟩
      · rw [List.pairwise_append]
        refine ⟨differ, List.pairwise_singleton .., fun earlier member later isLast => ?_⟩
        rw [List.mem_singleton.1 isLast]
        by_contra same
        exact new (List.any_eq_true.2 ⟨earlier, member, Bool.not_eq_false _ ▸ same⟩)

/-- Whatever is built has a property that building keeps. -/
theorem gives_build (h : Value.IsBuilt P) (tree : Tree) (limit room : ℕ) (node : Node) :
    Gives P (build tree limit room node) := by
  have scalar (tag : Option String) (plain : Bool) (text : String) :
      Gives P (liftM (scalarValue tag plain text) : BuildM Value) :=
    .lift fun _ => h.scalarValue
  have followed : Gives (fun _ => True) (followAlias tree limit node) := fun _ _ _ _ => trivial
  induction room generalizing node with
  | zero =>
    delta build
    refine followed.bind fun node' _ => ?_
    match node' with
    | .scalar tag plain text => exact scalar tag plain text
    | .sequence _ _ | .mapping _ _ | .alias _ => exact .throw
  | succ room ih =>
    have inside (node : Node) : Gives P (build tree limit room node) :=
      ih node fun _ _ _ _ => trivial
    delta build
    refine followed.bind fun node' _ => ?_
    match node' with
    | .scalar tag plain text => exact scalar tag plain text
    | .sequence tag items =>
      have all : Gives P (do
          withTag tag (.sequence (← items.mapM (build tree limit room))) : BuildM Value) :=
        (Gives.mapM inside items).bind fun values built => .lift fun _ =>
          h.withTag (h.sequence built)
      delta build at all
      exact all
    | .mapping tag entries =>
      have all : Gives P (do
          withTag tag (.mapping (← buildEntries (build tree limit room) entries [])) :
          BuildM Value) :=
        (gives_buildEntries inside entries (by simp) .nil).bind fun values built => .lift fun _ =>
          h.withTag (h.mapping built.1 built.2)
      delta build at all
      exact all
    | .alias _ => exact .throw

end Build

/-- Whatever is read has a property that building keeps. -/
theorem Value.IsBuilt.of_read {P : Value → Prop} (h : Value.IsBuilt P) {bytes : List UInt8}
    {value : Value} (loaded : read bytes = .ok value) : P value := by
  have ofTree {tree : Tree} (loaded : tree.value = .ok value) : P value := by
    unfold Tree.value at loaded
    split at loaded
    · exact Except.ok.inj loaded ▸ h.scalar trivial
    · rename_i root _
      rw [StateT.run'_eq] at loaded
      cases built : (build tree (100 * root.size) maxNesting root).run 0 with
      | error e =>
        rw [built] at loaded
        cases loaded
      | ok result =>
        rw [built] at loaded
        exact Except.ok.inj loaded ▸ gives_build h _ _ _ _ 0 result.1 result.2 built
  unfold read at loaded
  cases chars : readText bytes with
  | error e => simp [chars, bind, Except.bind] at loaded
  | ok chars' =>
    cases tokens : Token.scan chars' with
    | error e => simp [chars, tokens, bind, Except.bind] at loaded
    | ok tokens' =>
      cases tree : Tree.ofTokens tokens' with
      | error e => simp [chars, tokens, tree, bind, Except.bind] at loaded
      | ok tree' =>
        simp only [chars, tokens, tree, bind, Except.bind] at loaded
        exact ofTree loaded

theorem Value.isBuilt_inRange : Value.IsBuilt Value.InRange where
  scalar := Value.IsScalar.inRange
  sequence := Value.itemsInRange_iff.2
  mapping built _ := Value.entriesInRange_iff.2 fun entry member => (built entry member).2
  tagged := id

theorem inRange_of_read {bytes : List UInt8} {value : Value} (h : read bytes = .ok value) :
    value.InRange :=
  Value.isBuilt_inRange.of_read h

end Yaml

/-- A text is loaded if it is read, as the JSON value of what was read. -/
theorem loadJson_eq_ok_iff {bytes : List UInt8} {value : Json} :
    loadJson bytes = .ok value ↔
      ∃ source, Yaml.read bytes = .ok source ∧ source.toJson = value := by
  unfold loadJson
  cases Yaml.read bytes with
  | error e => simp [bind, Except.bind]
  | ok source => simp [bind, Except.bind, pure, Except.pure]

theorem loadable_of_loadJson {bytes : List UInt8} {value : Json}
    (h : loadJson bytes = .ok value) : value.Loadable := by
  obtain ⟨source, read, rfl⟩ := loadJson_eq_ok_iff.1 h
  exact source.loadable_toJson (Yaml.inRange_of_read read)

/-! ## Selection -/

namespace Json

theorem Loadable.of_child? {value inner : Json} {segment : List Char} (loadable : value.Loadable)
    (h : value.child? segment = some inner) : inner.Loadable := by
  cases value with
  | obj members => exact (loadable_obj_iff.1 loadable).2 _ (Entries.mem_of_find? h)
  | arr items =>
    obtain ⟨i, -, here⟩ := Option.bind_eq_some_iff.1 h
    exact loadable_arr_iff.1 loadable _ (List.mem_of_getElem? here)
  | _ => cases h

theorem Loadable.of_descend? {segments : List (List Char)} {value inner : Json}
    (loadable : value.Loadable) (h : value.descend? segments = some inner) : inner.Loadable := by
  induction segments generalizing value with
  | nil => exact Option.some.inj h ▸ loadable
  | cons segment rest ih =>
    obtain ⟨child, here, later⟩ := Option.bind_eq_some_iff.1 h
    exact ih (loadable.of_child? here) later

end Json

/-- What a target selects in a document that was fetched can be loaded. -/
theorem Target.loadable_of_select {fetcher : Fetcher} {turn : Nat} {t : Target}
    {value part : Json} (fetched : Cache.fetchDocument fetcher turn t.location = .ok value)
    (selected : t.select value = .ok part) : part.Loadable := by
  have loadable : value.Loadable := by
    unfold Cache.fetchDocument at fetched
    split at fetched
    · cases fetched
    · split at fetched
      · rename_i loaded
        exact Except.ok.inj fetched ▸ loadable_of_loadJson loaded
      · cases fetched
  unfold select at selected
  split at selected
  · exact Except.ok.inj selected ▸ loadable
  · split at selected
    · rename_i found
      obtain ⟨segments, -, found⟩ := Option.bind_eq_some_iff.1 found
      exact Except.ok.inj selected ▸ loadable.of_descend? found
    · cases selected

/-- What a target selects in a document that was fetched is well-formed. -/
theorem Target.wellFormed_of_select {fetcher : Fetcher} {turn : Nat} {t : Target}
    {value part : Json} (fetched : Cache.fetchDocument fetcher turn t.location = .ok value)
    (selected : t.select value = .ok part) : part.WellFormed :=
  (t.loadable_of_select fetched selected).wellFormed

end SchemaBundle
