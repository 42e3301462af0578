import Mathlib.Data.List.Nodup
import SchemaBundle.Schema.Read

/-!
# The members of a schema

Among members with distinct names every interpreted key is read on its own: `Parts.ofMembers_eq`
says what is read by looking the keys up. Writing a schema takes the interpreted members out and
puts them back at the end (`Entries.moved`), where they are found as before.
-/

namespace SchemaBundle

/-! ## Members taken out and put back -/

namespace Entries

variable {α : Type} {key other : String} {entries more : Entries α}

theorem find?_append (key : String) (entries more : Entries α) :
    find? key (entries ++ more) = (find? key entries).or (find? key more) := by
  induction entries with
  | nil => rfl
  | cons entry rest ih =>
    obtain ⟨k, v⟩ := entry
    by_cases same : k = key
    · simp [find?, same]
    · simp [find?, same, ih]

theorem find?_map {β : Type} (f : α → β) (key : String) (entries : Entries α) :
    find? key (entries.map fun entry => (entry.1, f entry.2)) = (find? key entries).map f := by
  induction entries with
  | nil => rfl
  | cons entry rest ih =>
    rw [List.map_cons, find?, find?, ih]
    split <;> rfl

theorem keys_append (entries more : Entries α) :
    keys (entries ++ more) = keys entries ++ keys more :=
  List.map_append

theorem distinct_insert (distinct : entries.Distinct) (key : String) (value : α) :
    (insert key value entries).Distinct := by
  rw [Distinct, keys_insert]
  split
  · exact distinct
  · rename_i absent
    rw [← List.concat_eq_append]
    exact List.Nodup.concat absent distinct

theorem find?_of_mem (distinct : entries.Distinct) {entry : String × α} (member : entry ∈ entries) :
    find? entry.1 entries = some entry.2 := by
  obtain ⟨i, bound, rfl⟩ := List.getElem_of_mem member
  exact find?_of_getElem? distinct (List.getElem?_eq_getElem bound)

theorem mem_insert {value : α} {entry : String × α} (h : entry ∈ insert key value entries) :
    entry = (key, value) ∨ entry ∈ entries := by
  induction entries with
  | nil => exact .inl (List.mem_singleton.1 h)
  | cons first rest ih =>
    obtain ⟨k, v⟩ := first
    rw [insert] at h
    split at h
    · rename_i same
      rcases List.mem_cons.1 h with here | later
      · exact .inl (same ▸ here)
      · exact .inr (List.mem_cons_of_mem _ later)
    · rcases List.mem_cons.1 h with here | later
      · exact .inr (here ▸ List.mem_cons_self ..)
      · exact (ih later).imp_right (List.mem_cons_of_mem _)

theorem keys_erase (key : String) (entries : Entries α) :
    keys (erase key entries) = (keys entries).erase key := by
  induction entries with
  | nil => rfl
  | cons entry rest ih =>
    obtain ⟨k, v⟩ := entry
    by_cases same : k = key
    · simp [erase, same]
    · simp [erase, same, ih]

theorem erase_sublist (key : String) (entries : Entries α) :
    (erase key entries).Sublist entries := by
  induction entries with
  | nil => exact .slnil
  | cons entry rest ih =>
    obtain ⟨k, v⟩ := entry
    by_cases same : k = key
    · simp [erase, same]
    · simpa [erase, same] using ih

theorem distinct_erase (distinct : entries.Distinct) (key : String) :
    (erase key entries).Distinct := by
  rw [Distinct, keys_erase]
  exact List.Nodup.erase key distinct

theorem find?_erase_self (distinct : entries.Distinct) (key : String) :
    find? key (erase key entries) = none := by
  rw [find?_eq_none_iff, keys_erase]
  exact List.Nodup.not_mem_erase distinct

theorem find?_erase_of_ne (ne : other ≠ key) (entries : Entries α) :
    find? key (erase other entries) = find? key entries := by
  induction entries with
  | nil => rfl
  | cons entry rest ih =>
    obtain ⟨k, v⟩ := entry
    by_cases same : k = other
    · subst same
      simp [erase, find?, ne]
    · simp [erase, find?, same, ih]

theorem erase_of_notMem (absent : key ∉ keys entries) : erase key entries = entries := by
  induction entries with
  | nil => rfl
  | cons entry rest ih =>
    obtain ⟨k, v⟩ := entry
    rw [keys_cons, List.mem_cons, not_or] at absent
    rw [erase, if_neg (Ne.symm absent.1), ih absent.2]

theorem erase_append (absent : key ∉ keys entries) (value : α) (more : Entries α) :
    erase key (entries ++ (key, value) :: more) = entries ++ more := by
  induction entries with
  | nil => simp [erase]
  | cons entry rest ih =>
    obtain ⟨k, v⟩ := entry
    rw [keys_cons, List.mem_cons, not_or] at absent
    simp [erase, Ne.symm absent.1, ih absent.2]

/-- An entry goes to the front. -/
theorem cons_erase_perm {value : α} (found : find? key entries = some value) :
    ((key, value) :: erase key entries).Perm entries := by
  induction entries with
  | nil => cases found
  | cons entry rest ih =>
    obtain ⟨k, v⟩ := entry
    by_cases same : k = key
    · simp only [find?, same, if_true, Option.some.injEq] at found
      simp [erase, same, found]
    · simp only [find?, same, if_false] at found
      rw [erase, if_neg same]
      exact (List.Perm.swap ..).trans ((ih found).cons (k, v))

/-- The entries without the names of others. -/
def without (taken entries : Entries α) : Entries α :=
  taken.foldl (fun entries entry => erase entry.1 entries) entries

/-- Entries that are taken out and put back at the end. -/
def moved (taken entries : Entries α) : Entries α :=
  without taken entries ++ taken

@[simp] theorem without_nil (entries : Entries α) : without [] entries = entries := rfl

@[simp] theorem without_cons (entry : String × α) (taken entries : Entries α) :
    without (entry :: taken) entries = without taken (erase entry.1 entries) := rfl

theorem without_append (taken taken' entries : Entries α) :
    without (taken ++ taken') entries = without taken' (without taken entries) :=
  List.foldl_append

theorem distinct_without (taken : Entries α) (distinct : entries.Distinct) :
    (without taken entries).Distinct := by
  induction taken generalizing entries with
  | nil => exact distinct
  | cons entry rest ih => exact ih (distinct_erase distinct entry.1)

theorem find?_without (taken : Entries α) (distinct : entries.Distinct) (key : String) :
    find? key (without taken entries)
      = if key ∈ keys taken then none else find? key entries := by
  induction taken generalizing entries with
  | nil => simp
  | cons entry rest ih =>
    rw [without_cons, ih (distinct_erase distinct entry.1)]
    by_cases same : entry.1 = key
    · subst same
      have member : entry.1 ∈ keys (entry :: rest) := List.mem_cons_self ..
      rw [find?_erase_self distinct, ite_self, if_pos member]
    · have still : key ∈ keys (entry :: rest) ↔ key ∈ keys rest := by
        rw [keys, List.map_cons, List.mem_cons, or_iff_right (Ne.symm same)]
        rfl
      simp only [find?_erase_of_ne same, still]

/-- An entry that was moved is found with its new value, and the others as before. -/
theorem find?_moved (taken : Entries α) (distinct : entries.Distinct) (key : String) :
    find? key (moved taken entries) = (find? key taken).or (find? key entries) := by
  rw [moved, find?_append, find?_without taken distinct]
  by_cases isTaken : key ∈ keys taken
  · obtain ⟨value, found⟩ := Option.isSome_iff_exists.1 ((contains_iff key taken).2 isTaken)
    simp [isTaken, found]
  · simp [isTaken, find?_eq_none_iff.2 isTaken]

theorem distinct_moved {taken : Entries α} (distinct : entries.Distinct)
    (distinct' : taken.Distinct) : (moved taken entries).Distinct := by
  rw [Distinct, moved, keys_append, List.nodup_append']
  refine ⟨distinct_without taken distinct, distinct', fun key member isTaken => ?_⟩
  have absent := find?_without taken distinct key
  rw [if_pos isTaken, find?_eq_none_iff] at absent
  exact absent member

/-- What was put back at the end can be taken out again. -/
theorem without_moved (taken : Entries α) (distinct : entries.Distinct) :
    without taken (moved taken entries) = without taken entries := by
  have absent : ∀ key ∈ keys taken, key ∉ keys (without taken entries) := by
    intro key isTaken
    rw [← find?_eq_none_iff, find?_without taken distinct, if_pos isTaken]
  unfold moved
  generalize without taken entries = rest at absent ⊢
  induction taken with
  | nil => exact List.append_nil rest
  | cons entry taken ih =>
    obtain ⟨key, value⟩ := entry
    rw [without_cons, erase_append (absent key (List.mem_cons_self ..))]
    exact ih fun key member => absent key (List.mem_cons_of_mem _ member)

end Entries

/-! ## Members that are there or not -/

section Optional

variable {key : String}

theorem find?_optionalMember (key other : String) (value : Option Json) :
    Entries.find? key (optionalMember other value) = if other = key then value else none := by
  cases value <;> simp [optionalMember, Entries.find?]

theorem keys_optionalMember_sublist (key : String) (value : Option Json) :
    (Entries.keys (optionalMember key value)).Sublist [key] := by
  cases value <;> simp [optionalMember]

theorem dropTaken_eq {α : Type} (key : String) (taken : Option α) (write : α → Json)
    (members : Members) :
    dropTaken key taken members
      = Entries.without (optionalMember key (taken.map write)) members := by
  cases taken <;> rfl

end Optional

/-! ## Interpreted keys by look-up -/

namespace Json

/-- A text. -/
def text? : Json → Option String
  | .str text => some text
  | _ => none

/-- A list of definitions. -/
def nodes? (layout : Layout) : Json → Option (List Node)
  | .arr values => some (Node.listOfJson layout values)
  | _ => none

/-- A list of fields. -/
def fields? (layout : Layout) : Json → Option (List Field)
  | .arr values => some (Field.listOfJson layout values)
  | _ => none

/-- A field of any shape. -/
def anyField? (layout : Layout) (value : Json) : Option Field :=
  some (Field.ofJson layout value)

/-- An object that is a field. -/
def field? (layout : Layout) : Json → Option Field
  | .obj members => some (Field.ofJson layout (.obj members))
  | _ => none

/-- Named fields. -/
def named? (layout : Layout) : Json → Option (List (String × Field))
  | .obj members => some (Field.entriesOfJson layout members)
  | _ => none

end Json

namespace Parts

/-- What is read of members, by looking the keys up. -/
def found (layout : Layout) (members : Members) : Parts where
  reference := (Entries.find? "$ref" members).bind Json.text?
  allOf := (Entries.find? "allOf" members).bind (Json.nodes? layout)
  items := (Entries.find? "items" members).bind (Json.anyField? layout)
  properties := (Entries.find? "properties" members).bind (Json.named? layout)
  additional := (Entries.find? "additionalProperties" members).bind (Json.field? layout)
  oneOf := (Entries.find? "oneOf" members).bind (Json.fields? layout)
  anyOf := (Entries.find? "anyOf" members).bind (Json.fields? layout)
  negated := (Entries.find? "not" members).bind (Json.field? layout)

/-- One more member is read: it counts if it has the shape expected of its key. -/
theorem withMember_eq (layout : Layout) (key : String) (parts : Parts) (value : Json) :
    withMember layout key parts value =
      { reference := (if key = "$ref" then value.text? else .none).or parts.reference
        allOf := (if key = "allOf" then value.nodes? layout else .none).or parts.allOf
        items := (if key = "items" then value.anyField? layout else .none).or parts.items
        properties :=
          (if key = "properties" then value.named? layout else .none).or parts.properties
        additional :=
          (if key = "additionalProperties" then value.field? layout else .none).or parts.additional
        oneOf := (if key = "oneOf" then value.fields? layout else .none).or parts.oneOf
        anyOf := (if key = "anyOf" then value.fields? layout else .none).or parts.anyOf
        negated := (if key = "not" then value.field? layout else .none).or parts.negated } := by
  by_cases known : key ∈ ["$ref", "allOf", "items", "properties", "additionalProperties", "oneOf",
    "anyOf", "not"]
  · simp only [List.mem_cons, List.not_mem_nil, or_false] at known
    rcases known with rfl | rfl | rfl | rfl | rfl | rfl | rfl | rfl <;> cases value <;> rfl
  · simp only [List.mem_cons, List.not_mem_nil, or_false, not_or] at known
    cases value <;> simp only [withMember, known, if_false, Option.none_or]

/-- What is read of a key is read of its first member. -/
theorem or_bind_find? {α : Type} {key other : String} {value : Json} {rest : Members}
    (absent : key ∉ Entries.keys rest) (read : Json → Option α) :
    (if key = other then read value else .none).or ((Entries.find? other rest).bind read)
      = (if key = other then some value else Entries.find? other rest).bind read := by
  by_cases same : key = other
  · simp [same, Entries.find?_eq_none_iff.2 (same ▸ absent)]
  · simp [same]

/-- **Every interpreted key is read on its own.** -/
theorem ofMembers_eq (layout : Layout) {members : Members} (distinct : members.Distinct) :
    ofMembers layout members = found layout members := by
  induction members with
  | nil => rfl
  | cons entry rest ih =>
    obtain ⟨key, value⟩ := entry
    obtain ⟨absent, distinct⟩ := List.nodup_cons.1 distinct
    rw [ofMembers, ih distinct, withMember_eq]
    simp only [found, Entries.find?]
    congr 1 <;> exact or_bind_find? absent _

end Parts

end SchemaBundle
