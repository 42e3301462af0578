import SchemaBundle.Proofs.Schema.Places
import SchemaBundle.Resolve.Pass

/-!
# What a walk comes to

`Node.stops` lists, in the order of a walk, the references that the walk follows and the schemas
that it leaves because there is no room for them. Nothing is followed here: the stops of a schema
are known before the walk, and what a walk does is accounted for stop by stop.

The stops of a part are the reference that it is and the stops of the parts below, which have a
level less (`Part.stops_succ`). So the references among the stops are those that stand at places
within the room (`Node.isAt_of_mem_stops` and `Node.mem_stops_of_refAt?`).
-/

namespace SchemaBundle

/-- What a walk comes to, with the scope that it is in. -/
inductive Stop
  | reference (scope : Scope) (r : RefNode)
  /-- A schema for which there is no room. -/
  | tooDeep (scope : Scope)

mutual

/-- The stops of the walk of a definition with some room. -/
def Node.stops (scope : Scope) : Nat → Node → List Stop
  | 0, _ => [.tooDeep scope]
  | _ + 1, .ref r => [.reference scope r]
  | room + 1, .array items _ => items.toList.flatMap (Field.stops scope room)
  | room + 1, .composed parent child interfaces inline _ =>
    parent.toList.flatMap (Node.stops scope room) ++
      (child.toList.flatMap (Node.stops scope room) ++
        (interfaces.flatMap (fun r => [.reference scope r]) ++
          inline.flatMap (Node.stops scope room)))
  | room + 1, .object properties additional oneOf anyOf negated _ =>
    properties.toList.flatMap (fun fields =>
        fields.flatMap fun field => Field.stops scope room field.2) ++
      (additional.toList.flatMap (Field.stops scope room) ++
        (oneOf.toList.flatMap (fun fields => fields.flatMap (Field.stops scope room)) ++
          (anyOf.toList.flatMap (fun fields => fields.flatMap (Field.stops scope room)) ++
            negated.toList.flatMap (Field.stops scope room))))
  | _ + 1, .plain _ => []

/-- The stops of the walk of a field with some room. -/
def Field.stops (scope : Scope) : Nat → Field → List Stop
  | 0, _ => [.tooDeep scope]
  | _ + 1, .ref r => [.reference scope r]
  | room + 1, .array items _ => items.toList.flatMap (Field.stops scope room)
  | room + 1, .map additional _ => Field.stops scope room additional
  | room + 1, .schema node => Node.stops scope room node
  | _ + 1, .primitive _ => []
  | _ + 1, .plain _ => []

end

/-! ## Part by part -/

/-- The stops of the walk of a schema with some room. -/
def Schema.stops (scope : Scope) (room : Nat) : Schema → List Stop
  | .node a => a.stops scope room
  | .field a => a.stops scope room

/-- The stops of the visit of a part with some room. -/
def Part.stops (scope : Scope) (room : Nat) : Part → List Stop
  | .schema a => a.stops scope room
  | .reference r => [.reference scope r]

/-- The stops of a schema are those of its parts, which have a level less. -/
theorem Schema.stops_succ (scope : Scope) (room : Nat) (a : Schema) :
    a.stops scope (room + 1) = a.parts.flatMap (Part.stops scope (room + 1 - a.drop)) := by
  cases a with
  | node a =>
    cases a <;> simp [Schema.stops, Schema.parts, Schema.drop, Node.stops, Node.parts, Part.stops,
      Node.part, Field.part, List.flatMap_map, List.flatMap_assoc]
  | field a =>
    cases a <;> simp [Schema.stops, Schema.parts, Schema.drop, Field.stops, Field.parts, Part.stops,
      Node.part, Field.part, List.flatMap_map]

namespace Part

/-- The stops of a part are the reference that it is, and the stops of the parts below. -/
theorem stops_succ (scope : Scope) (room : Nat) (x : Part) :
    x.stops scope (room + 1)
      = x.reference?.toList.map (Stop.reference scope)
        ++ x.below.flatMap (Part.stops scope room) := by
  cases x with
  | reference r => rfl
  | schema a =>
    rw [stops, a.stops_succ, below]
    cases a with
    | node a => cases a <;> simp [reference?, Schema.drop, Schema.parts, Node.parts, stops]
    | field a => cases a <;> simp [reference?, Schema.drop, Schema.parts, Field.parts, stops]

/-- Without room a schema is too deep. -/
theorem stops_zero (scope : Scope) (a : Schema) :
    (Part.schema a).stops scope 0 = [.tooDeep scope] := by
  cases a <;> simp [stops, Schema.stops, Node.stops, Field.stops]

end Part

/-! ## Stops and places -/

/-- A stop in a schema whose references are found by their places: a subtree without room, or a
reference within the room. -/
inductive Stop.IsAt (scope : Scope) (room : Nat) (references : List PlaceStep → Option RefNode) :
    Stop → Prop
  | tooDeep : IsAt scope room references (.tooDeep scope)
  | reference (place : List PlaceStep) {r : RefNode} (found : references place = some r)
    (within : levels place < room) : IsAt scope room references (.reference scope r)

section Stops

variable {scope : Scope} {room : Nat} {stop : Stop}

/-- A stop in a part below is a stop in the part. -/
theorem Stop.IsAt.of_mem_below {x y : Part} (member : y ∈ x.below)
    (h : stop.IsAt scope (room + 1 - y.lift) (y.refAt? ·)) :
    stop.IsAt scope (room + 2 - x.lift) (x.refAt? ·) := by
  obtain ⟨step, there⟩ := Part.mem_below_iff.1 member
  cases h with
  | tooDeep => exact .tooDeep
  | @reference place r found within =>
    refine .reference (step :: place) (by rw [Part.refAt?_cons, there]; exact found) ?_
    have deeper := Part.levels_cons there place
    have lift := Part.lift_of_partAt? there
    omega

/-- The stops in a part stand at its places. -/
theorem Part.isAt_of_mem_stops {x : Part} (h : stop ∈ x.stops scope room) :
    stop.IsAt scope (room + 1 - x.lift) (x.refAt? ·) := by
  induction room generalizing x with
  | zero =>
    cases x with
    | schema a =>
      rw [stops_zero, List.mem_singleton] at h
      exact h ▸ .tooDeep
    | reference r =>
      obtain rfl := List.mem_singleton.1 h
      exact .reference [] rfl Nat.one_pos
  | succ room ih =>
    rw [stops_succ, List.mem_append] at h
    rcases h with here | inside
    · obtain ⟨r, isReference, rfl⟩ := List.mem_map.1 here
      refine .reference [] (by rw [refAt?_nil, Option.mem_toList.1 isReference]) ?_
      have lift := x.lift_le_one
      simp only [levels]
      omega
    · obtain ⟨y, member, inside⟩ := List.mem_flatMap.1 inside
      exact (ih inside).of_mem_below member

/-- Every reference of a part within the room is a stop. -/
theorem Part.mem_stops_of_refAt? {x : Part} {place : List PlaceStep} {r : RefNode}
    (found : x.refAt? place = some r) (within : levels place + x.lift ≤ room) :
    .reference scope r ∈ x.stops scope room := by
  induction place generalizing room x with
  | nil =>
    rw [refAt?_nil] at found
    cases room with
    | zero =>
      cases x with
      | schema a => simp [levels, lift] at within
      | reference r =>
        cases found
        exact List.mem_singleton_self _
    | succ room => simp [stops_succ, found]
  | cons step rest ih =>
    rw [refAt?_cons] at found
    obtain ⟨y, there, found⟩ := Option.bind_eq_some_iff.1 found
    rw [levels_cons there, lift_of_partAt? there] at within
    obtain ⟨room, rfl⟩ : ∃ n, room = n + 1 := ⟨room - 1, by omega⟩
    rw [stops_succ, List.mem_append, List.mem_flatMap]
    exact .inr ⟨y, mem_below_iff.2 ⟨step, there⟩, ih found (by omega)⟩

/-- The stops in a definition stand at its places. -/
theorem Node.isAt_of_mem_stops {a : Node} (h : stop ∈ a.stops scope room) :
    stop.IsAt scope room (Node.refAt? · a) :=
  Part.isAt_of_mem_stops (x := a.part) h

/-- The stops in a field stand at its places. -/
theorem Field.isAt_of_mem_stops {a : Field} (h : stop ∈ a.stops scope room) :
    stop.IsAt scope room (Field.refAt? · a) :=
  Part.isAt_of_mem_stops (x := a.part) h

/-- Every reference within the room is a stop. -/
theorem Node.mem_stops_of_refAt? {a : Node} {place : List PlaceStep} {r : RefNode}
    (found : a.refAt? place = some r) (within : levels place < room) :
    .reference scope r ∈ a.stops scope room :=
  Part.mem_stops_of_refAt? (x := a.part) found within

end Stops

end SchemaBundle
