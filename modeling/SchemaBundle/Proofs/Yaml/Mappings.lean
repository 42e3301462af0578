import SchemaBundle.Proofs.Json.Loaded
import SchemaBundle.Proofs.Yaml.Numbers

/-!
# What loading makes of mappings

A mapping becomes an object whose names are the texts of its keys. The reader refuses a mapping that
has a key twice, but different keys may have one text, as the number 200 and the string of its
digits do: then the last entry takes the place of the first, and the others are lost.
`loadJson_whole_iff` tells exactly when every entry is kept, and what becomes of each mapping
otherwise. Null, truth values and numbers never share a text among themselves
(`Value.eqv_of_keyText`).
-/

namespace SchemaBundle

namespace Yaml

/-! ## The texts of keys -/

namespace Value

/-- Null, a truth value or a number. -/
def IsLiteral : Value → Prop
  | .null | .bool _ | .number _ => True
  | .str _ | .sequence _ | .mapping _ | .tagged _ _ => False

/-- A string. -/
def IsString : Value → Prop
  | .str _ => True
  | _ => False

/-- The literal that a text was written for, in no layout but that of keys. -/
def ofKeyText? (text : List Char) : Option Value :=
  match Core.integer? text with
  | some n => some (.number (.int n))
  | none => (Core.untagged text).toOption

theorem ofKeyText?_keyText {key : Value} (literal : key.IsLiteral) :
    ofKeyText? key.keyText.toList = some key := by
  cases key with
  | null => rfl
  | bool b => cases b <;> rfl
  | number x =>
    cases x with
    | int n =>
      have text : (Number.int n).keyText.toList = Json.integerChars n := String.toList_ofList
      rw [ofKeyText?, keyText, text, Core.integer?_integerChars]
    | float x =>
      obtain ⟨digits, k, isText, -⟩ := Core.exists_isText keyLayout x.shortest
      have text : (Number.float x).keyText.toList = x.chars keyLayout := String.toList_ofList
      have noInteger : Core.integer? (x.chars keyLayout) = none :=
        isText.integer?_eq_none x.negative
      rw [ofKeyText?, keyText, text, noInteger, Core.untagged_chars]
      rfl
    | infinity negative => cases negative <;> rfl
    | notANumber => rfl
  | str | sequence | mapping | tagged => exact literal.elim

theorem eqv_self {key : Value} (literal : key.IsLiteral) : key.eqv key = true := by
  cases key with
  | null => rfl
  | bool b => exact beq_self_eq_true b
  | number x =>
    cases x with
    | int n => exact beq_self_eq_true n
    | float x => exact x.numEq_refl
    | infinity negative => exact beq_self_eq_true negative
    | notANumber => rfl
  | str | sequence | mapping | tagged => exact literal.elim

/-- **Two literals with one text are equal**, and so are two strings. -/
theorem eqv_of_keyText {key other : Value}
    (kind : key.IsLiteral ∧ other.IsLiteral ∨ key.IsString ∧ other.IsString)
    (same : key.keyText = other.keyText) : key.eqv other = true := by
  rcases kind with ⟨literal, literal'⟩ | ⟨string, string'⟩
  · -- The text is read back as the literal that it was written for.
    have read := ofKeyText?_keyText literal
    rw [same, ofKeyText?_keyText literal', Option.some.injEq] at read
    subst read
    exact eqv_self literal
  · cases key with
    | str s =>
      cases other with
      | str t => exact beq_iff_eq.2 same
      | _ => exact string'.elim
    | _ => exact string.elim

/-! ## Mappings inside a value -/

/-- The texts of the keys of a mapping, in its order. -/
def keyTexts (entries : List (Value × Value)) : List String :=
  entries.map fun entry => entry.1.keyText

/-- No two keys of the mapping have one text. -/
def IsApart (entries : List (Value × Value)) : Prop :=
  (keyTexts entries).Nodup

instance : DecidablePred IsApart :=
  fun entries => inferInstanceAs (Decidable (keyTexts entries).Nodup)

mutual

/-- Every mapping in a value is as `P` says, in whatever list, tagged value, key or entry. -/
def EveryMapping (P : List (Value × Value) → Prop) : Value → Prop
  | .sequence items => EveryMappingOfItems P items
  | .mapping entries => P entries ∧ EveryMappingOfEntries P entries
  | .tagged _ value => EveryMapping P value
  | .null | .bool _ | .number _ | .str _ => True

/-- Every mapping in the items. -/
def EveryMappingOfItems (P : List (Value × Value) → Prop) : List Value → Prop
  | [] => True
  | value :: rest => EveryMapping P value ∧ EveryMappingOfItems P rest

/-- Every mapping in the keys and values of entries. -/
def EveryMappingOfEntries (P : List (Value × Value) → Prop) : List (Value × Value) → Prop
  | [] => True
  | (key, value) :: rest =>
    EveryMapping P key ∧ EveryMapping P value ∧ EveryMappingOfEntries P rest

end

section Every

variable {P : List (Value × Value) → Prop}

theorem everyMappingOfItems_iff {items : List Value} :
    EveryMappingOfItems P items ↔ ∀ item ∈ items, item.EveryMapping P := by
  induction items with
  | nil => simp [EveryMappingOfItems]
  | cons item rest ih => simp [EveryMappingOfItems, ih]

theorem everyMappingOfEntries_iff {entries : List (Value × Value)} :
    EveryMappingOfEntries P entries ↔
      ∀ entry ∈ entries, entry.1.EveryMapping P ∧ entry.2.EveryMapping P := by
  induction entries with
  | nil => simp [EveryMappingOfEntries]
  | cons entry rest ih => simp [EveryMappingOfEntries, ih, and_assoc]

section Decide

variable [DecidablePred P]

mutual

/-- What holds of every mapping is searched for in the value. -/
def decideEveryMapping : ∀ value : Value, Decidable (value.EveryMapping P)
  | .sequence items =>
    have := decideEveryMappingOfItems items
    decidable_of_iff (EveryMappingOfItems P items) (by rw [EveryMapping])
  | .mapping entries =>
    have := decideEveryMappingOfEntries entries
    decidable_of_iff (P entries ∧ EveryMappingOfEntries P entries) (by rw [EveryMapping])
  | .tagged _ value =>
    have := decideEveryMapping value
    decidable_of_iff (value.EveryMapping P) (by rw [EveryMapping])
  | .null | .bool _ | .number _ | .str _ => isTrue trivial

/-- What holds of every mapping is searched for in the items. -/
def decideEveryMappingOfItems : ∀ items : List Value, Decidable (EveryMappingOfItems P items)
  | [] => isTrue trivial
  | value :: rest =>
    have := decideEveryMapping value
    have := decideEveryMappingOfItems rest
    decidable_of_iff (value.EveryMapping P ∧ EveryMappingOfItems P rest)
      (by rw [EveryMappingOfItems])

/-- What holds of every mapping is searched for in keys and values. -/
def decideEveryMappingOfEntries :
    ∀ entries : List (Value × Value), Decidable (EveryMappingOfEntries P entries)
  | [] => isTrue trivial
  | (key, value) :: rest =>
    have := decideEveryMapping key
    have := decideEveryMapping value
    have := decideEveryMappingOfEntries rest
    decidable_of_iff (key.EveryMapping P ∧ value.EveryMapping P ∧ EveryMappingOfEntries P rest)
      (by rw [EveryMappingOfEntries])

end

instance : DecidablePred (EveryMapping P) :=
  decideEveryMapping

end Decide

/-- What follows of a mapping from its keys' being different holds of all mappings that are read. -/
theorem isBuilt_everyMapping (h : ∀ entries : List (Value × Value),
    (entries.Pairwise fun earlier later => later.1.eqv earlier.1 = false) → P entries) :
    IsBuilt (EveryMapping P) where
  scalar {value} scalar := by
    cases value with
    | sequence | mapping | tagged => exact scalar.elim
    | _ => trivial
  sequence := everyMappingOfItems_iff.2
  mapping built differ := ⟨h _ differ, everyMappingOfEntries_iff.2 built⟩
  tagged := id

end Every

/-! ## Values that are kept whole -/

mutual

/-- A JSON value holds all that a value holds: each mapping is an object with an entry for each of
its entries, in the same order, under the text of the key and with the entry's own value. -/
def IsWhole : Value → Json → Prop
  | .null, .null => True
  | .bool a, .bool b => a = b
  | .number n, json => json = n.toJson
  | .str s, .str t => s = t
  | .sequence items, .arr values => AreWhole items values
  | .mapping entries, .obj members => AreWholeEntries entries members
  | .tagged _ value, json => IsWhole value json
  | _, _ => False

/-- Values one by one. -/
def AreWhole : List Value → List Json → Prop
  | [], [] => True
  | value :: rest, json :: more => IsWhole value json ∧ AreWhole rest more
  | _, _ => False

/-- Entries one by one. A key is whole in the JSON value that its text is written for. -/
def AreWholeEntries : List (Value × Value) → List (String × Json) → Prop
  | [], [] => True
  | (key, value) :: rest, (name, json) :: more =>
    name = key.keyText ∧ IsWhole key key.toJson ∧ IsWhole value json ∧ AreWholeEntries rest more
  | _, _ => False

end

theorem keys_entriesToJson (entries : List (Value × Value)) :
    Entries.keys (entriesToJson entries) = keyTexts entries := by
  induction entries with
  | nil => rfl
  | cons entry rest ih => exact congrArg (entry.1.keyText :: ·) ih

theorem distinct_entriesToJson_iff {entries : List (Value × Value)} :
    Entries.Distinct (entriesToJson entries) ↔ IsApart entries := by
  rw [Entries.Distinct, keys_entriesToJson, IsApart]

theorem length_entriesToJson (entries : List (Value × Value)) :
    (entriesToJson entries).length = entries.length := by
  induction entries with
  | nil => rfl
  | cons entry rest ih => exact congrArg (· + 1) ih

theorem keys_of_areWholeEntries : ∀ {entries : List (Value × Value)} {members : Members},
    AreWholeEntries entries members → Entries.keys members = keyTexts entries
  | [], [], _ => rfl
  | _ :: _, _ :: _, ⟨name, _, _, rest⟩ =>
    congrArg₂ List.cons name (keys_of_areWholeEntries rest)

/-- An object with distinct names has exactly the entries of a mapping with distinct texts. -/
theorem areWholeEntries_ofList_iff {entries : List (Value × Value)} :
    AreWholeEntries entries (Entries.ofList (entriesToJson entries)) ↔
      IsApart entries ∧ AreWholeEntries entries (entriesToJson entries) := by
  have same (apart : IsApart entries) :
      Entries.ofList (entriesToJson entries) = entriesToJson entries :=
    Entries.ofList_of_distinct (distinct_entriesToJson_iff.2 apart)
  refine ⟨fun whole => ?_, fun ⟨apart, whole⟩ => by rwa [same apart]⟩
  have apart : IsApart entries := by
    rw [IsApart, ← keys_of_areWholeEntries whole]
    exact Entries.distinct_ofList _
  exact ⟨apart, same apart ▸ whole⟩

mutual

/-- **A value is kept whole exactly if no mapping in it has two keys of one text.** -/
theorem isWhole_toJson_iff : ∀ value : Value,
    value.IsWhole value.toJson ↔ value.EveryMapping IsApart
  | .null | .bool _ | .number _ | .str _ => by simp [toJson, IsWhole, EveryMapping]
  | .sequence items => by
    rw [toJson, IsWhole, EveryMapping, areWhole_itemsToJson_iff items]
  | .mapping entries => by
    rw [toJson, IsWhole, EveryMapping, areWholeEntries_ofList_iff,
      areWholeEntries_entriesToJson_iff entries]
  | .tagged _ value => by
    rw [toJson, IsWhole, EveryMapping, isWhole_toJson_iff value]

theorem areWhole_itemsToJson_iff : ∀ items : List Value,
    AreWhole items (itemsToJson items) ↔ EveryMappingOfItems IsApart items
  | [] => by simp [itemsToJson, AreWhole, EveryMappingOfItems]
  | value :: rest => by
    rw [itemsToJson, AreWhole, EveryMappingOfItems, isWhole_toJson_iff value,
      areWhole_itemsToJson_iff rest]

theorem areWholeEntries_entriesToJson_iff : ∀ entries : List (Value × Value),
    AreWholeEntries entries (entriesToJson entries) ↔ EveryMappingOfEntries IsApart entries
  | [] => by simp [entriesToJson, AreWholeEntries, EveryMappingOfEntries]
  | (key, value) :: rest => by
    rw [entriesToJson, AreWholeEntries, EveryMappingOfEntries, isWhole_toJson_iff key,
      isWhole_toJson_iff value, areWholeEntries_entriesToJson_iff rest]
    exact and_iff_right rfl

end

/-! ## What becomes of a mapping -/

/-- What the members of an object owe to the entries of a mapping. -/
structure BecomesMembers (entries : List (Value × Value)) (members : Members) : Prop where
  /-- Equal keys were refused. -/
  differ : entries.Pairwise fun earlier later => later.1.eqv earlier.1 = false
  /-- Keys that share a text are of different kinds, or are no scalars. -/
  mixed : entries.Pairwise fun earlier later => earlier.1.keyText = later.1.keyText →
    ¬(earlier.1.IsLiteral ∧ later.1.IsLiteral) ∧ ¬(earlier.1.IsString ∧ later.1.IsString)
  /-- Each text has the place of its first key. -/
  names : Entries.keys members = (keyTexts entries).eraseDups
  /-- Each text has the value of its last key. -/
  values : ∀ name, Entries.find? name members = Entries.find? name (entriesToJson entries).reverse
  /-- All entries are there, in their order, exactly if no text comes twice. -/
  whole : members = entriesToJson entries ↔ IsApart entries
  /-- Otherwise there are fewer. -/
  length : members.length = entries.length ↔ IsApart entries

theorem becomesMembers_ofList {entries : List (Value × Value)}
    (differ : entries.Pairwise fun earlier later => later.1.eqv earlier.1 = false) :
    BecomesMembers entries (Entries.ofList (entriesToJson entries)) where
  differ := differ
  mixed := differ.imp fun {earlier later} differ same => by
    refine ⟨fun literal => ?_, fun string => ?_⟩
    · rw [eqv_of_keyText (.inl literal.symm) same.symm] at differ
      cases differ
    · rw [eqv_of_keyText (.inr string.symm) same.symm] at differ
      cases differ
  names := by rw [Entries.keys_ofList, keys_entriesToJson]
  values := Entries.find?_ofList _
  whole := by
    rw [← distinct_entriesToJson_iff]
    exact ⟨fun same => same ▸ Entries.distinct_ofList _, Entries.ofList_of_distinct⟩
  length := by
    rw [← length_entriesToJson, Entries.length_ofList_eq_iff, distinct_entriesToJson_iff]

end Value

end Yaml

/-! ## Loading -/

/-- **What loading keeps of mappings.** Whatever text is loaded was read as one value, and the JSON
value holds all of it exactly if no mapping in it, at whatever depth, has two keys of one text. The
keys of each mapping are different, as the reader refuses equal ones; keys of one text, which two
literals or two strings never are, share the member that has the place of the first of them and the
value of the last. -/
theorem loadJson_whole_iff {bytes : List UInt8} {value : Json}
    (loaded : loadJson bytes = .ok value) :
    ∃ source, Yaml.read bytes = .ok source ∧ value = source.toJson ∧
      (source.IsWhole value ↔ source.EveryMapping Yaml.Value.IsApart) ∧
      source.EveryMapping fun entries => ∃ members,
        (Yaml.Value.mapping entries).toJson = .obj members ∧
          Yaml.Value.BecomesMembers entries members := by
  obtain ⟨source, read, rfl⟩ := loadJson_eq_ok_iff.1 loaded
  refine ⟨source, read, rfl, source.isWhole_toJson_iff, ?_⟩
  refine (Yaml.Value.isBuilt_everyMapping fun entries differ => ?_).of_read read
  exact ⟨_, rfl, Yaml.Value.becomesMembers_ofList differ⟩

/-- The JSON text of a value, and whether no mapping in it has two keys of one text. -/
def Yaml.Value.outcome (value : Value) : String × Bool :=
  (value.toJson.compact, decide (value.EveryMapping IsApart))

theorem exists_of_outcome {bytes : List UInt8} {text : String} {apart : Bool}
    (h : (Yaml.read bytes).toOption.map Yaml.Value.outcome = some (text, apart)) :
    ∃ source, Yaml.read bytes = .ok source ∧ loadJson bytes = .ok source.toJson ∧
      source.toJson.compact = text ∧
      decide (source.EveryMapping Yaml.Value.IsApart) = apart := by
  obtain ⟨source, read, same⟩ := exists_of_toOption_map h
  obtain ⟨text, apart⟩ := Prod.mk.inj same
  exact ⟨source, read, loadJson_eq_ok_iff.2 ⟨source, read, rfl⟩, text, apart⟩

namespace Sample

/-- Mappings with keys of every kind, in a list, in a key, under a tag and behind an alias. -/
def mappings : List UInt8 :=
  "a: &x \x7b200: ok, 2e2: ok, null: []\x7d\n? [1, \x7bb: 2\x7d]\n: !t [*x]\n".toUTF8.toList

/-- What they are loaded as. -/
def loadedMappings : String :=
  "\x7b\"a\":\x7b\"200\":\"ok\",\"200.0\":\"ok\",\"null\":[]\x7d," ++
    "\"[1,\x7b\\\"b\\\":2\x7d]\":[\x7b\"200\":\"ok\",\"200.0\":\"ok\",\"null\":[]\x7d]\x7d"

end Sample

/-- Each of the mappings is kept whole. -/
theorem loadJson_whole_iff_sample : ∃ source value, Yaml.read Sample.mappings = .ok source ∧
    loadJson Sample.mappings = .ok value ∧ value.compact = Sample.loadedMappings ∧
    source.IsWhole value := by
  have run : (Yaml.read Sample.mappings).toOption.map Yaml.Value.outcome
      = some (Sample.loadedMappings, true) := by
    decide +kernel
  obtain ⟨source, read, loaded, text, apart⟩ := exists_of_outcome run
  obtain ⟨source', read', -, whole, -⟩ := loadJson_whole_iff loaded
  obtain rfl : source = source' := Except.ok.inj (read.symm.trans read')
  exact ⟨source, _, read, loaded, text, whole.2 (of_decide_eq_true apart)⟩

/-! ## Entries that are lost -/

namespace Sample

/-- A status as a number and as a string. -/
def statuses : List UInt8 :=
  "200: old\nother: kept\n'200': new\n".toUTF8.toList

/-- Null and a string, in a list. -/
def nothings : List UInt8 :=
  "- \x7bnull: old, 'null': new\x7d\n".toUTF8.toList

end Sample

/-- A text is loaded as a value that does not hold all that was read. -/
def LoadsInPart (bytes : List UInt8) (text : String) : Prop :=
  ∃ source value, Yaml.read bytes = .ok source ∧ loadJson bytes = .ok value ∧
    value.compact = text ∧ ¬source.IsWhole value

theorem loadsInPart_of_outcome {bytes : List UInt8} {text : String}
    (h : (Yaml.read bytes).toOption.map Yaml.Value.outcome = some (text, false)) :
    LoadsInPart bytes text := by
  obtain ⟨source, read, loaded, text, clash⟩ := exists_of_outcome h
  refine ⟨source, _, read, loaded, text, fun whole => ?_⟩
  exact of_decide_eq_false clash (source.isWhole_toJson_iff.1 whole)

/-- A key that is a number or null overwrites nothing, but is overwritten by its own text. -/
theorem loadJson_overwrites :
    LoadsInPart Sample.statuses "\x7b\"200\":\"new\",\"other\":\"kept\"\x7d" ∧
      LoadsInPart Sample.nothings "[\x7b\"null\":\"new\"\x7d]" :=
  ⟨loadsInPart_of_outcome (by decide +kernel), loadsInPart_of_outcome (by decide +kernel)⟩

end SchemaBundle
