import SchemaBundle.Decimal.Shortest
import SchemaBundle.Entries

/-!
# JSON values with ordered members

`Json` is a JSON value whose objects keep the order of their members. Integers and finite binary
numbers are different values, also when they are numerically equal. Equality as data, `Json.eqv`,
disregards the order of members and the sign of zero; plain equality does not.
-/

namespace SchemaBundle

/-- A JSON value. -/
inductive Json
  | null
  | bool (value : Bool)
  /-- A whole number, from `-2 ^ 63` up to `2 ^ 64 - 1`. -/
  | int (value : Int)
  | float (value : Binary64)
  | str (value : String)
  | arr (items : List Json)
  | obj (members : List (String × Json))
  deriving Inhabited

/-- Named JSON values in order. -/
abbrev Members := Entries Json

namespace Json

/-- The value of a member, if this is an object that has it. -/
def member? (key : String) : Json → Option Json
  | .obj members => Entries.find? key members
  | _ => none

/-- Whether a value is a string. -/
def isStr : Json → Bool
  | .str _ => true
  | _ => false

/-- Whether a value is a list. -/
def isArr : Json → Bool
  | .arr _ => true
  | _ => false

/-- Whether a value is an object. -/
def isObj : Json → Bool
  | .obj _ => true
  | _ => false

/-- What a value is called in messages. -/
def kindName : Json → String
  | .null => "null"
  | .bool _ => "boolean"
  | .int _ => "number"
  | .float _ => "number"
  | .str _ => "string"
  | .arr _ => "array"
  | .obj _ => "object"

/-! ## Equality as data -/

mutual

/-- Equality as data: members in any order, numbers by value within their kind. -/
def eqv : Json → Json → Bool
  | .null, .null => true
  | .bool a, .bool b => a == b
  | .int a, .int b => a == b
  | .float a, .float b => a.numEq b
  | .str a, .str b => a == b
  | .arr xs, .arr ys => eqvItems xs ys
  | .obj xs, .obj ys => xs.length == ys.length && eqvMembers xs ys
  | _, _ => false

/-- Equality of lists, item by item. -/
def eqvItems : List Json → List Json → Bool
  | [], [] => true
  | x :: xs, y :: ys => eqv x y && eqvItems xs ys
  | _, _ => false

/-- Every member on the left has an equal one of its name on the right. -/
def eqvMembers : List (String × Json) → List (String × Json) → Bool
  | [], _ => true
  | (key, x) :: xs, ys =>
    (match Entries.find? key ys with
      | some y => eqv x y
      | none => false) && eqvMembers xs ys

end

/-- Equality of two sets of members as data. -/
def eqvObject (xs ys : Members) : Bool :=
  xs.length == ys.length && eqvMembers xs ys

/-! ## Well-formed values -/

mutual

/-- No object in the value has two members of one name. -/
def WellFormed : Json → Prop
  | .arr items => WellFormedItems items
  | .obj members => Entries.Distinct members ∧ WellFormedMembers members
  | _ => True

/-- Every item is well-formed. -/
def WellFormedItems : List Json → Prop
  | [] => True
  | x :: xs => WellFormed x ∧ WellFormedItems xs

/-- Every member's value is well-formed. -/
def WellFormedMembers : List (String × Json) → Prop
  | [] => True
  | (_, x) :: xs => WellFormed x ∧ WellFormedMembers xs

end

theorem wellFormedItems_iff {items : List Json} :
    WellFormedItems items ↔ ∀ item ∈ items, WellFormed item := by
  induction items with
  | nil => simp [WellFormedItems]
  | cons item rest ih => simp [WellFormedItems, ih]

theorem wellFormedMembers_iff {members : Members} :
    WellFormedMembers members ↔ ∀ entry ∈ members, WellFormed entry.2 := by
  induction members with
  | nil => simp [WellFormedMembers]
  | cons entry rest ih => simp [WellFormedMembers, ih]

theorem wellFormed_arr_iff {items : List Json} :
    (Json.arr items).WellFormed ↔ ∀ item ∈ items, item.WellFormed := by
  rw [WellFormed, wellFormedItems_iff]

theorem wellFormed_obj_iff {members : Members} :
    (Json.obj members).WellFormed ↔ members.Distinct ∧ ∀ entry ∈ members, entry.2.WellFormed := by
  rw [WellFormed, wellFormedMembers_iff]

end Json

end SchemaBundle
