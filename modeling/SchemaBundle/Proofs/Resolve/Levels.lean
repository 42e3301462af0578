import SchemaBundle.Proofs.Resolve.Stops

/-!
# The levels of a schema

`Part.level` are the parts that a walk visits some levels below a part, if there is room. A schema
ends, so from some level on there is nothing (`Part.exists_level_eq_nil`), and a walk that starts
with so much room comes to nothing too deep (`Part.exists_room`).
-/

namespace SchemaBundle

namespace Part

/-- The parts some levels below a part. -/
def level : Nat → Part → List Part
  | 0, x => [x]
  | n + 1, x => x.below.flatMap (level n)

theorem mem_level_succ {n : Nat} {x z : Part} :
    z ∈ x.level (n + 1) ↔ ∃ y ∈ x.below, z ∈ y.level n := by
  rw [level, List.mem_flatMap]

theorem level_eq_nil_iff {n : Nat} {x : Part} :
    x.level (n + 1) = [] ↔ ∀ y ∈ x.below, y.level n = [] := by
  rw [level, List.flatMap_eq_nil_iff]

/-! ## Where a schema ends -/

/-- **A schema ends**: from some level on there is nothing. -/
theorem exists_level_eq_nil (x : Part) : ∃ n, x.level n = [] := by
  refine ⟨sizeOf x, ?_⟩
  suffices bounded : ∀ n y, sizeOf y ≤ n → level n y = [] from bounded _ x (Nat.le_refl _)
  intro n
  induction n with
  | zero =>
    intro y small
    have positive : 0 < sizeOf y := by
      cases y <;> simp only [schema.sizeOf_spec, reference.sizeOf_spec] <;> omega
    omega
  | succ n ih =>
    intro y small
    rw [level_eq_nil_iff]
    intro z member
    have smaller := sizeOf_lt_of_mem_below member
    exact ih z (by omega)

/-- Below the end there is nothing. -/
theorem level_eq_nil_of_le {x : Part} {n m : Nat} (ends : x.level n = []) (le : n ≤ m) :
    x.level m = [] := by
  induction n generalizing x m with
  | zero => cases ends
  | succ n ih =>
    obtain ⟨m, rfl⟩ : ∃ k, m = k + 1 := ⟨m - 1, by omega⟩
    rw [level_eq_nil_iff] at ends ⊢
    exact fun y member => ih (ends y member) (by omega)

/-- There is nothing too deep in a part exactly if there is nothing too deep in the parts below. -/
theorem tooDeep_notMem_succ {scope : Scope} {room : Nat} {x : Part} :
    .tooDeep scope ∉ x.stops scope (room + 1)
      ↔ ∀ y ∈ x.below, .tooDeep scope ∉ y.stops scope room := by
  simp [stops_succ]

theorem tooDeep_notMem_of_level {scope : Scope} {room : Nat} {x : Part}
    (ends : x.level room = []) : .tooDeep scope ∉ x.stops scope room := by
  induction room generalizing x with
  | zero => cases ends
  | succ room ih =>
    exact tooDeep_notMem_succ.2 fun y member => ih (level_eq_nil_iff.1 ends y member)

/-- With room enough a walk comes to nothing that is too deep. -/
theorem exists_room (scope : Scope) (x : Part) :
    ∃ room, ∀ enough, room ≤ enough → .tooDeep scope ∉ x.stops scope enough := by
  obtain ⟨room, ends⟩ := x.exists_level_eq_nil
  exact ⟨room, fun _ le => tooDeep_notMem_of_level (level_eq_nil_of_le ends le)⟩

/-! ## Other references -/

theorem level_mapRefs (f : RefNode → RefNode) (n : Nat) (x : Part) :
    (x.mapRefs f).level n = (x.level n).map (mapRefs f) := by
  induction n generalizing x with
  | zero => rfl
  | succ n ih =>
    rw [level, level, below_mapRefs, List.flatMap_map, List.map_flatMap]
    exact congrArg x.below.flatMap (funext ih)

end Part

end SchemaBundle
