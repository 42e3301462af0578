import Mathlib.Data.List.Nodup
import Mathlib.Tactic.ByContra
import SchemaBundle.Resolve.Pass

/-!
# The search for a name

`Pass.place` looks at one candidate more than there are names in use, and candidates are distinct.
So it always ends with an offer, which is the first one (`Pass.place_first`). What a name offers is
said by `Pass.offer?_eq_some_iff`: a fresh name is neither in the registry nor handed out
(`Pass.unused_of_place`), and a definition that is reused is there and identical
(`Pass.present_of_place`).
-/

namespace SchemaBundle

namespace Pass

theorem candidate_injective (name : String) : Function.Injective (candidate name) := by
  intro i j h
  unfold candidate at h
  have chars := congrArg String.toList h
  split at chars <;> split at chars
  · omega
  · simp at chars
  · simp at chars
  · simp only [String.toList_append, String.toList_ofList] at chars
    rw [← Nat.ofDigitChars_ten_toDigits (n := i), List.append_cancel_left chars,
      Nat.ofDigitChars_ten_toDigits]

/-- The name under which a fragment goes. -/
def Placement.name : Placement → String
  | .existing name => name
  | .fresh name => name

section Search

variable {p : Pass} {reuse : Bool} {node : Node} {name : String}

/-- The search gives the first offer, if there is one within its fuel. -/
theorem searchFrom_first {fuel k : Nat}
    (offered : ∃ j, k ≤ j ∧ j < k + fuel ∧ (p.offer? reuse node (candidate name j)).isSome) :
    ∃ j, k ≤ j ∧
      p.offer? reuse node (candidate name j) = some (p.searchFrom reuse node name fuel k) ∧
      ∀ i, k ≤ i → i < j → p.offer? reuse node (candidate name i) = none := by
  induction fuel generalizing k with
  | zero =>
    obtain ⟨j, low, high, _⟩ := offered
    omega
  | succ fuel ih =>
    rw [searchFrom]
    cases here : p.offer? reuse node (candidate name k) with
    | some placement => exact ⟨k, Nat.le_refl k, here, fun i low high => by omega⟩
    | none =>
      obtain ⟨j, low, high, some⟩ := offered
      have later : k ≠ j := by
        rintro rfl
        simp [here] at some
      have offered : ∃ j, k + 1 ≤ j ∧ j < k + 1 + fuel ∧
          (p.offer? reuse node (candidate name j)).isSome := ⟨j, by omega, by omega, some⟩
      obtain ⟨j, low, found, first⟩ := ih offered
      refine ⟨j, by omega, found, fun i hi hij => ?_⟩
      rcases Nat.eq_or_lt_of_le hi with rfl | hi
      · exact here
      · exact first i hi hij

/-- A name offers its definition, if that is identical and reuse is allowed, or itself, if it is
free. -/
theorem offer?_eq_some_iff {placement : Placement} : p.offer? reuse node name = some placement ↔
    ((reuse = true ∧ ∃ present, Entries.find? name p.definitions = some present ∧
        present.eqv node = true) ∧ .existing name = placement) ∨
      (name ∉ Entries.keys p.definitions ∧ name ∉ p.cache.reserved) ∧ .fresh name = placement := by
  rw [offer?, ← Entries.find?_eq_none_iff]
  cases Entries.find? name p.definitions with
  | some present => simp [and_assoc]
  | none => simp [Cache.isReserved]

theorem offer?_eq_none_iff : p.offer? reuse node name = none ↔
    (∃ present, Entries.find? name p.definitions = some present ∧
        (reuse = true → present.eqv node = false)) ∨
      name ∉ Entries.keys p.definitions ∧ name ∈ p.cache.reserved := by
  rw [offer?, ← Entries.find?_eq_none_iff]
  cases Entries.find? name p.definitions with
  | some present => simp
  | none => simp [Cache.isReserved]

theorem taken_of_offer?_eq_none (h : p.offer? reuse node name = none) :
    name ∈ Entries.keys p.definitions ++ p.cache.reserved := by
  rw [List.mem_append]
  rcases offer?_eq_none_iff.1 h with ⟨present, found, -⟩ | ⟨-, reserved⟩
  · exact .inl (List.mem_map_of_mem (Entries.mem_of_find? found))
  · exact .inr reserved

/-- What is offered is the candidate. -/
theorem name_of_offer? {placement : Placement} (h : p.offer? reuse node name = some placement) :
    placement.name = name := by
  rcases offer?_eq_some_iff.1 h with ⟨-, rfl⟩ | ⟨-, rfl⟩ <;> rfl

/-- One candidate more than there are names in use cannot all be taken. -/
theorem exists_offer (p : Pass) (reuse : Bool) (node : Node) (name : String) :
    ∃ j < p.definitions.length + p.cache.reserved.length + 1,
      (p.offer? reuse node (candidate name j)).isSome := by
  by_contra! none
  let used := Entries.keys p.definitions ++ p.cache.reserved
  let candidates := (List.range (used.length + 1)).map (candidate name)
  have length : used.length = p.definitions.length + p.cache.reserved.length := by
    simp [used, Entries.keys]
  have distinct : candidates.Nodup := List.nodup_range.map (candidate_injective name)
  have taken : candidates ⊆ used := by
    intro other member
    obtain ⟨j, hj, rfl⟩ := List.mem_map.1 member
    refine @taken_of_offer?_eq_none p reuse node _ ?_
    simpa using none j (by simpa [length] using hj)
  have bound := distinct.length_le_of_subset taken
  simp only [candidates, List.length_map, List.length_range] at bound
  omega

end Search

/-- **The placement of a fragment is the first offer among its candidates.** -/
theorem place_first (options : Options) (name : String) (node : Node) (p : Pass) :
    ∃ k, p.offer? (options.reuseIdentical && node.isSelfContained) node (candidate name k)
        = some (p.place options name node) ∧
      ∀ j < k, p.offer? (options.reuseIdentical && node.isSelfContained) node (candidate name j)
        = none := by
  obtain ⟨j, bound, some⟩ :=
    exists_offer p (options.reuseIdentical && node.isSelfContained) node name
  rw [← Nat.zero_add (p.definitions.length + p.cache.reserved.length + 1)] at bound
  obtain ⟨k, -, found, first⟩ := searchFrom_first ⟨j, Nat.zero_le j, bound, some⟩
  exact ⟨k, found, fun i hi => first i (Nat.zero_le i) hi⟩

/-- The search for a name comes to an end within as many candidates as there are names in use. -/
theorem exists_first_offer (options : Options) (natural : String) (node : Node) (p : Pass) :
    ∃ k ≤ p.definitions.length + p.cache.reserved.length,
      p.offer? (options.reuseIdentical && node.isSelfContained) node (candidate natural k)
        = some (p.place options natural node) ∧
      ∀ j < k, p.offer? (options.reuseIdentical && node.isSelfContained) node (candidate natural j)
        = none := by
  obtain ⟨k, offer, first⟩ := place_first options natural node p
  obtain ⟨j, bound, offered⟩ :=
    exists_offer p (options.reuseIdentical && node.isSelfContained) node natural
  refine ⟨k, ?_, offer, first⟩
  by_contra! late
  rw [first j (by omega)] at offered
  cases offered

variable {options : Options} {natural name : String} {node : Node} {p : Pass}

/-- A fresh name is not in use. -/
theorem unused_of_place (h : p.place options natural node = .fresh name) :
    name ∉ Entries.keys p.definitions ∧ p.cache.isReserved name = false := by
  obtain ⟨k, offer, -⟩ := place_first options natural node p
  rw [h] at offer
  rcases offer?_eq_some_iff.1 offer with ⟨-, other⟩ | ⟨⟨absent, free⟩, same⟩
  · cases other
  · cases same
    exact ⟨absent, by simpa [Cache.isReserved] using free⟩

/-- A definition is reused only if reuse is allowed, the fragment has no references, and the
definition is identical to it. -/
theorem present_of_place (h : p.place options natural node = .existing name) :
    options.reuseIdentical = true ∧ node.isSelfContained = true ∧
      ∃ present, Entries.find? name p.definitions = some present ∧ present.eqv node = true := by
  obtain ⟨k, offer, -⟩ := place_first options natural node p
  rw [h] at offer
  rcases offer?_eq_some_iff.1 offer with ⟨⟨reuse, identical⟩, same⟩ | ⟨-, other⟩
  · cases same
    rw [Bool.and_eq_true] at reuse
    exact ⟨reuse.1, reuse.2, identical⟩
  · cases other

end Pass

end SchemaBundle
