import Mathlib.Algebra.Order.BigOperators.Group.List
import Mathlib.Algebra.Order.Ring.Nat
import Mathlib.Data.Set.Finite.List
import SchemaBundle.Json.Pointer

/-!
# The pointers into a value

A value has finitely many parts, and each part has finitely many pointers: the text of a segment is
at most twice as long as what it stands for, and a position is written without leading zeros. So
only finitely many pointers select anything in a value (`Json.finite_selecting`).
-/

namespace SchemaBundle

/-! ## How long pointers are -/

namespace Pointer

theorem length_le_unescapeChars (s : List Char) : s.length ≤ 2 * (unescapeChars s).length := by
  induction s using unescapeChars.induct with
  | case1 => simp
  | case2 rest ih | case3 rest ih =>
    rw [unescapeChars, List.length_cons, List.length_cons, List.length_cons]
    omega
  | case4 c rest ne ne' ih =>
    rw [unescapeChars, List.length_cons, List.length_cons]
    · omega
    · exact ne
    · exact ne'

/-- The characters of the pieces, and the cuts between them. -/
theorem sum_length_pieces (c : Char) (text : List Char) :
    ((Text.pieces c text).map fun piece => piece.length + 1).sum = text.length + 1 := by
  induction text with
  | nil => rfl
  | cons x rest ih =>
    cases pieces : Text.pieces c rest with
    | nil =>
      rw [pieces] at ih
      simp at ih
    | cons piece more =>
      rw [pieces, List.map_cons, List.sum_cons] at ih
      simp only [Text.pieces, pieces]
      split
      · simp only [List.map_cons, List.sum_cons, List.length_cons, List.length_nil]
        omega
      · simp only [List.map_cons, List.sum_cons, List.length_cons]
        omega

/-- A pointer is bounded by its segments. -/
theorem length_le_of_segments? {pointer : List Char} {segments : List (List Char)}
    (h : segments? pointer = some segments) :
    pointer.length ≤ (segments.map fun segment => 2 * segment.length + 1).sum := by
  unfold segments? at h
  split at h
  · exact Nat.zero_le _
  · rename_i rest
    obtain rfl := Option.some.inj h
    have pieces := sum_length_pieces '/' rest
    have longer : ((Text.pieces '/' rest).map fun piece => piece.length + 1).sum
        ≤ (((Text.pieces '/' rest).map unescapeChars).map
            fun segment => 2 * segment.length + 1).sum := by
      rw [List.map_map]
      refine List.sum_le_sum fun piece _ => ?_
      exact Nat.succ_le_succ (length_le_unescapeChars piece)
    rw [List.length_cons]
    omega
  · cases h

/-- Every further digit makes a number larger. -/
theorem add_length_le_foldl (digits : List Char) {n : Nat} (positive : 0 < n) :
    n + digits.length ≤ digits.foldl (fun n d => 10 * n + (d.toNat - 48)) n := by
  induction digits generalizing n with
  | nil => exact Nat.le_refl n
  | cons d rest ih =>
    have step := @ih (10 * n + (d.toNat - 48)) (by omega)
    rw [List.foldl_cons, List.length_cons]
    omega

theorem lt_of_isDigit {c : Char} (isDigit : c.isDigit = true) (ne : c ≠ '0') : 48 < c.toNat := by
  have least : 48 ≤ c.toNat := by
    simp only [Char.isDigit, Bool.and_eq_true, decide_eq_true_eq] at isDigit
    exact isDigit.1
  have other : c.toNat ≠ 48 := fun same => ne (Char.toNat_inj.1 same)
  omega

/-- A position has no more digits than its number allows. -/
theorem length_le_of_position? {segment : List Char} {i : Nat} (h : position? segment = some i) :
    segment.length ≤ i + 1 := by
  cases segment with
  | nil => exact Nat.zero_le _
  | cons c rest =>
    simp only [position?] at h
    split at h
    · cases h
    · rename_i noZero
      split at h
      · rename_i digits
        obtain rfl := Option.some.inj h
        cases rest with
        | nil => simp
        | cons d rest =>
          have isDigit : c.isDigit = true := (List.all_eq_true.1 digits) c List.mem_cons_self
          have ne : c ≠ '0' := fun isZero => noZero ⟨isZero, List.cons_ne_nil d rest⟩
          have large := lt_of_isDigit isDigit ne
          have bound := @add_length_le_foldl (d :: rest) (10 * 0 + (c.toNat - 48)) (by omega)
          rw [List.foldl_cons, List.length_cons]
          omega
      · cases h

end Pointer

/-! ## Finitely many pointers -/

theorem finite_char : Finite Char :=
  Finite.of_injective (fun c => c.val.toFin) fun _ _ same => Char.ext (UInt32.toFin_inj.1 same)

theorem finite_texts (n : Nat) : {text : List Char | text.length ≤ n}.Finite :=
  have := finite_char
  List.finite_length_le Char n

namespace Json

theorem sizeOf_child? {segment : List Char} {value inner : Json}
    (h : child? segment value = some inner) : sizeOf inner < sizeOf value := by
  cases value with
  | obj members =>
    have member := List.sizeOf_lt_of_mem (Entries.mem_of_find? h)
    simp only [Prod.mk.sizeOf_spec, obj.sizeOf_spec] at member ⊢
    omega
  | arr items =>
    obtain ⟨i, -, found⟩ := Option.bind_eq_some_iff.1 h
    have member := List.sizeOf_lt_of_mem (List.mem_of_getElem? found)
    simp only [arr.sizeOf_spec]
    omega
  | _ => cases h

/-- The segments that lead to a part of a value. -/
theorem finite_children (value : Json) :
    {segment | (child? segment value).isSome = true}.Finite := by
  cases value with
  | obj members =>
    refine Set.Finite.subset (List.finite_toSet ((Entries.keys members).map String.toList)) ?_
    intro segment some
    have present : Entries.contains (String.ofList segment) members = true := some
    rw [Entries.contains_iff] at present
    exact List.mem_map.2 ⟨_, present, by simp⟩
  | arr items =>
    refine Set.Finite.subset (finite_texts items.length) ?_
    intro segment some
    obtain ⟨inner, found⟩ := Option.isSome_iff_exists.1 some
    obtain ⟨i, position, found⟩ := Option.bind_eq_some_iff.1 found
    have bound := (List.getElem?_eq_some_iff.1 found).1
    have short := Pointer.length_le_of_position? position
    exact Nat.le_trans short bound
  | _ => exact Set.Finite.subset Set.finite_empty fun segment some => by cases some

/-- The lists of segments that lead into a value, by induction on its size. -/
theorem finite_descents (value : Json) :
    {segments | (descend? value segments).isSome = true}.Finite := by
  induction size : sizeOf value using Nat.strong_induction_on generalizing value with
  | _ n ih =>
    have inside : (⋃ segment ∈ {segment | (child? segment value).isSome = true},
        ⋃ inner ∈ {inner | child? segment value = some inner},
          (segment :: ·) '' {rest | (descend? inner rest).isSome = true}).Finite := by
      refine (finite_children value).biUnion fun segment _ => ?_
      refine (Set.Subsingleton.finite ?_).biUnion fun inner found => ?_
      · exact fun a ha b hb => Option.some.inj (ha.symm.trans hb)
      · exact (ih (sizeOf inner) (size ▸ sizeOf_child? found) inner rfl).image _
    refine (inside.insert []).subset fun segments some => ?_
    cases segments with
    | nil => exact Set.mem_insert ..
    | cons segment rest =>
      refine Set.mem_insert_of_mem _ ?_
      obtain ⟨part, found⟩ := Option.isSome_iff_exists.1 some
      obtain ⟨inner, child, found⟩ := Option.bind_eq_some_iff.1 found
      simp only [Set.mem_iUnion]
      exact ⟨segment, by simp [child], inner, child, rest, by simp [found], rfl⟩

/-- **Only finitely many pointers select something in a value.** -/
theorem finite_selecting (value : Json) :
    {pointer | (value.select? pointer).isSome = true}.Finite := by
  have texts : (⋃ segments ∈ {segments | (descend? value segments).isSome = true},
      {text | Pointer.segments? text = some segments}).Finite := by
    refine (finite_descents value).biUnion fun segments _ => ?_
    exact (finite_texts _).subset fun text read => Pointer.length_le_of_segments? read
  refine (texts.image String.ofList).subset fun pointer some => ?_
  obtain ⟨part, found⟩ := Option.isSome_iff_exists.1 some
  obtain ⟨segments, read, found⟩ := Option.bind_eq_some_iff.1 found
  refine ⟨pointer.toList, ?_, String.ofList_toList⟩
  simp only [Set.mem_iUnion]
  exact ⟨segments, by simp [found], read⟩

end Json

end SchemaBundle
