/-!
# Named entries in order

The members of an object, the definitions of a registry and the fields of a schema are lists of
named values whose order is part of the value and whose names are distinct. `Entries.insert` is
the one way to add: it replaces the value of a name in place, or appends a new name at the end.
-/

namespace SchemaBundle

/-- Named values in order. -/
abbrev Entries (α : Type) := List (String × α)

namespace Entries

variable {α β : Type}

/-- The value under a name. -/
def find? (key : String) : Entries α → Option α
  | [] => none
  | (k, v) :: rest => if k = key then some v else find? key rest

/-- Whether a name has a value. -/
def contains (key : String) (entries : Entries α) : Bool :=
  (find? key entries).isSome

/-- The names in order. -/
def keys (entries : Entries α) : List String :=
  entries.map (·.1)

/-- Give a name a value: in its place if the name is there, else at the end. -/
def insert (key : String) (value : α) : Entries α → Entries α
  | [] => [(key, value)]
  | (k, v) :: rest => if k = key then (k, value) :: rest else (k, v) :: insert key value rest

/-- Drop a name; the others keep their order. -/
def erase (key : String) : Entries α → Entries α
  | [] => []
  | (k, v) :: rest => if k = key then rest else (k, v) :: erase key rest

/-- Insert the pairs one after the other: a name that comes again keeps its first place and takes
the last value. -/
def ofList (pairs : List (String × α)) : Entries α :=
  pairs.foldl (fun entries pair => insert pair.1 pair.2 entries) []

/-- No name comes twice. -/
def Distinct (entries : Entries α) : Prop :=
  (keys entries).Nodup

@[simp] theorem keys_nil : keys ([] : Entries α) = [] := rfl

@[simp] theorem keys_cons (k : String) (v : α) (rest : Entries α) :
    keys ((k, v) :: rest) = k :: keys rest := rfl

theorem find?_insert_self (key : String) (value : α) (entries : Entries α) :
    find? key (insert key value entries) = some value := by
  induction entries with
  | nil => simp [insert, find?]
  | cons entry rest ih =>
    obtain ⟨k, v⟩ := entry
    by_cases h : k = key <;> simp [insert, find?, h, ih]

theorem find?_insert_of_ne {key other : String} (h : key ≠ other) (value : α)
    (entries : Entries α) : find? other (insert key value entries) = find? other entries := by
  induction entries with
  | nil => simp [insert, find?, h]
  | cons entry rest ih =>
    obtain ⟨k, v⟩ := entry
    by_cases hk : k = key
    · subst hk; simp [insert, find?, h]
    · simp [insert, find?, hk, ih]

/-- The value of a new name put at the end. -/
theorem find?_append_self {key : String} {entries : Entries α} (h : find? key entries = none)
    (value : α) : find? key (entries ++ [(key, value)]) = some value := by
  induction entries with
  | nil => simp [find?]
  | cons entry rest ih =>
    obtain ⟨k, v⟩ := entry
    by_cases hk : k = key
    · simp [find?, hk] at h
    · simp only [find?, hk, if_false] at h
      simp [find?, hk, ih h]

/-- Exactly the names have values. -/
theorem contains_iff (key : String) (entries : Entries α) :
    contains key entries ↔ key ∈ keys entries := by
  induction entries with
  | nil => simp [contains, find?]
  | cons entry rest ih =>
    obtain ⟨k, v⟩ := entry
    by_cases h : k = key
    · simp [contains, find?, h]
    · simpa [contains, find?, h, Ne.symm h] using ih

theorem find?_eq_none_iff {key : String} {entries : Entries α} :
    find? key entries = none ↔ key ∉ keys entries := by
  rw [← contains_iff, contains, Option.not_isSome_iff_eq_none]

/-- A new name goes to the end. -/
theorem insert_of_notMem {key : String} {entries : Entries α} (h : key ∉ keys entries) (value : α) :
    insert key value entries = entries ++ [(key, value)] := by
  induction entries with
  | nil => rfl
  | cons entry rest ih =>
    obtain ⟨k, v⟩ := entry
    simp only [keys_cons, List.mem_cons, not_or] at h
    rw [insert, if_neg (Ne.symm h.1), ih h.2, List.cons_append]

theorem find?_append_of_some {key : String} {entries : Entries α} {value : α}
    (h : find? key entries = some value) (more : Entries α) :
    find? key (entries ++ more) = some value := by
  induction entries with
  | nil => simp [find?] at h
  | cons entry rest ih =>
    obtain ⟨k, v⟩ := entry
    by_cases hk : k = key
    · simpa [find?, hk] using h
    · simp only [find?, hk, if_false] at h
      simp [find?, hk, ih h]

theorem find?_append_of_ne {key other : String} (h : key ≠ other) (entries : Entries α)
    (value : α) : find? key (entries ++ [(other, value)]) = find? key entries := by
  induction entries with
  | nil => simp [find?, Ne.symm h]
  | cons entry rest ih =>
    obtain ⟨k, v⟩ := entry
    by_cases hk : k = key <;> simp [find?, hk, ih]

/-- Another value in its place. -/
theorem keys_set {entries : Entries α} {i : Nat} {key : String} {value : α}
    (h : entries[i]? = some (key, value)) (other : α) :
    keys (entries.set i (key, other)) = keys entries := by
  apply List.ext_getElem?
  intro j
  simp only [keys, List.getElem?_map, List.getElem?_set]
  by_cases same : i = j
  · subst same
    simp only [h, if_true, Option.map_some]
    rw [if_pos (List.getElem?_eq_some_iff.1 h).1]
    rfl
  · simp [same]

theorem keys_insert (key : String) (value : α) (entries : Entries α) :
    keys (insert key value entries) =
      if key ∈ keys entries then keys entries else keys entries ++ [key] := by
  induction entries with
  | nil => simp [insert]
  | cons entry rest ih =>
    obtain ⟨k, v⟩ := entry
    by_cases h : k = key
    · simp [insert, h]
    · by_cases hr : key ∈ keys rest <;> simp [insert, h, ih, hr, Ne.symm h]

theorem mem_of_find? {key : String} {entries : Entries α} {value : α}
    (h : find? key entries = some value) : (key, value) ∈ entries := by
  induction entries with
  | nil => simp [find?] at h
  | cons entry rest ih =>
    obtain ⟨k, v⟩ := entry
    by_cases same : k = key
    · subst same
      simp only [find?, if_true, Option.some.injEq] at h
      exact h ▸ List.mem_cons_self ..
    · simp only [find?, same, if_false] at h
      exact List.mem_cons_of_mem _ (ih h)

theorem find?_of_getElem? {entries : Entries α} (distinct : entries.Distinct) {i : Nat}
    {key : String} {value : α} (h : entries[i]? = some (key, value)) :
    find? key entries = some value := by
  induction entries generalizing i with
  | nil => simp at h
  | cons entry rest ih =>
    obtain ⟨k, v⟩ := entry
    obtain ⟨absent, distinct⟩ := List.nodup_cons.1 distinct
    cases i with
    | zero =>
      rw [List.getElem?_cons_zero, Option.some.injEq, Prod.mk.injEq] at h
      simp [find?, h.1, h.2]
    | succ i =>
      rw [List.getElem?_cons_succ] at h
      have ne : k ≠ key := by
        rintro rfl
        exact absent (List.mem_map.2 ⟨_, List.mem_of_getElem? h, rfl⟩)
      simp [find?, ne, ih distinct h]

/-- Another value in its place is the value of its name. -/
theorem find?_set_self {entries : Entries α} (distinct : entries.Distinct) {i : Nat} {key : String}
    {value : α} (h : entries[i]? = some (key, value)) (other : α) :
    find? key (entries.set i (key, other)) = some other := by
  refine find?_of_getElem? ?_ (List.getElem?_set_self (List.getElem?_eq_some_iff.1 h).1)
  rwa [Distinct, keys_set h]

theorem find?_set_of_ne {entries : Entries α} {i : Nat} {key other : String} {value : α}
    (h : entries[i]? = some (key, value)) (ne : other ≠ key) (value' : α) :
    find? other (entries.set i (key, value')) = find? other entries := by
  induction entries generalizing i with
  | nil => simp at h
  | cons entry rest ih =>
    obtain ⟨k, v⟩ := entry
    cases i with
    | zero =>
      rw [List.getElem?_cons_zero, Option.some.injEq, Prod.mk.injEq] at h
      simp [find?, h.1, Ne.symm ne]
    | succ i =>
      rw [List.getElem?_cons_succ] at h
      simp [find?, ih h]

end Entries

end SchemaBundle
