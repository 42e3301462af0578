import Mathlib.Data.List.Perm.Subperm
import Mathlib.Order.Nat
import SchemaBundle.Proofs.Schema.RoundTrip
import SchemaBundle.Proofs.Schema.SelfContained

/-!
# The comparison of schemas

Fragments are compared by a recursion that looks each member of an object up in the other one. Where
no object has a name twice, this is an equivalence: a value is `Comparable` if it is equal to itself
and whatever is equal to it is equal to each other, and moreover shows no key `$ref` that the other
does not show. This is so of every schema that is read from a well-formed value
(`isComparable_ofJson`), by one lemma for lists, options, objects and each kind of schema.
-/

namespace SchemaBundle

/-! ## Comparable values -/

/-- Comparison with a value is as that of equal things, and keeps a property. -/
structure Comparable {α : Type} (same : α → α → Bool) (key : α → Bool) (a : α) : Prop where
  refl : same a a = true
  join : ∀ {b c}, same a b = true → same a c = true → same b c = true
  key : ∀ {b}, same a b = true → key a = true → key b = true

namespace Comparable

variable {α : Type} {same : α → α → Bool} {key : α → Bool}

theorem symm {a b : α} (h : Comparable same key a) (equal : same a b = true) : same b a = true :=
  h.join equal h.refl

/-- Lists that are compared item by item. -/
theorem list {sames : List α → List α → Bool}
    (iff : ∀ as bs, sames as bs = true ↔ List.Forall₂ (same · · = true) as bs) {as : List α}
    (each : ∀ a ∈ as, Comparable same key a) : Comparable sames (·.any key) as where
  refl := (iff as as).2 (List.forall₂_same.2 fun a member => (each a member).refl)
  join := by
    intro bs cs toBs toCs
    rw [iff] at toBs toCs ⊢
    induction toBs generalizing cs with
    | nil =>
      cases toCs
      exact .nil
    | cons first _ ih =>
      cases toCs with
      | cons first' rest' =>
        obtain ⟨here, later⟩ := List.forall_mem_cons.1 each
        exact .cons (here.join first first') (ih later rest')
  key := by
    intro bs toBs shows
    rw [iff] at toBs
    obtain ⟨a, member, shows⟩ := List.any_eq_true.1 shows
    obtain ⟨b, there, equal⟩ := forall₂_left toBs member
    exact List.any_eq_true.2 ⟨b, there, (each a member).key equal shows⟩

/-- Values that may be missing. -/
theorem option {sames : Option α → Option α → Bool}
    (iff : ∀ x y, sames x y = true ↔ Option.Rel (same · · = true) x y) {x : Option α}
    (each : ∀ a ∈ x, Comparable same key a) : Comparable sames (·.any key) x where
  refl := (iff x x).2 (by
    cases x with
    | none => exact .none
    | some a => exact .some (each a rfl).refl)
  join := by
    intro y z toY toZ
    rw [iff] at toY toZ ⊢
    cases toY with
    | none =>
      cases toZ
      exact .none
    | some toB =>
      cases toZ with
      | some toC => exact .some ((each _ rfl).join toB toC)
  key := by
    intro y toY shows
    rw [iff] at toY
    cases toY with
    | none => cases shows
    | some toB => exact (each _ rfl).key toB shows

/-- Named values that are looked up in each other, and as many on both sides. With distinct names on
one side the names are the same on the other. -/
theorem entries {sames : Entries α → Entries α → Bool}
    (iff : ∀ xs ys, sames xs ys = true ↔ xs.length = ys.length ∧
      ∀ x ∈ xs, ∃ y, Entries.find? x.1 ys = some y ∧ same x.2 y = true)
    {xs : Entries α} (distinct : xs.Distinct) (each : ∀ x ∈ xs, Comparable same key x.2) :
    Comparable sames (fun xs => Entries.contains "$ref" xs || xs.any fun x => key x.2) xs where
  refl := (iff xs xs).2
    ⟨rfl, fun x member => ⟨x.2, Entries.find?_of_mem distinct member, (each x member).refl⟩⟩
  join := by
    intro ys zs toYs toZs
    rw [iff] at toYs toZs ⊢
    refine ⟨toYs.1.symm.trans toZs.1, fun y member => ?_⟩
    -- the names on the left are among those on the right, and these are no more
    have names : (Entries.keys xs).Perm (Entries.keys ys) := by
      refine (List.subperm_of_subset distinct fun name isName => ?_).perm_of_length_le
        (by simp [Entries.keys, toYs.1])
      obtain ⟨x, isX, rfl⟩ := List.mem_map.1 isName
      obtain ⟨y, found, -⟩ := toYs.2 x isX
      exact (Entries.contains_iff ..).1 (by simp [Entries.contains, found])
    obtain ⟨x, isX, sameName⟩ := List.mem_map.1 (names.mem_iff.2 (List.mem_map_of_mem member))
    obtain ⟨y', foundY, toY⟩ := toYs.2 x isX
    obtain ⟨z, foundZ, toZ⟩ := toZs.2 x isX
    have found := Entries.find?_of_mem (names.nodup_iff.1 distinct) member
    rw [← sameName, foundY, Option.some.injEq] at found
    exact ⟨z, sameName ▸ foundZ, found ▸ (each x isX).join toY toZ⟩
  key := by
    intro ys toYs shows
    rw [iff] at toYs
    rw [Bool.or_eq_true] at shows ⊢
    refine shows.imp (fun here => ?_) fun shows => ?_
    · obtain ⟨x, isX, name⟩ := List.mem_map.1 ((Entries.contains_iff ..).1 here)
      obtain ⟨y, found, -⟩ := toYs.2 x isX
      rw [← name, Entries.contains, found]
      rfl
    · obtain ⟨x, isX, shows⟩ := List.any_eq_true.1 shows
      obtain ⟨y, found, equal⟩ := toYs.2 x isX
      exact List.any_eq_true.2 ⟨_, Entries.mem_of_find? found, (each x isX).key equal shows⟩

/-- Pairs that are compared part by part. -/
theorem pair {β : Type} {same' : β → β → Bool} {key' : β → Bool} {a : α} {b : β}
    (first : Comparable same key a) (second : Comparable same' key' b) :
    Comparable (fun x y => same x.1 y.1 && same' x.2 y.2) (fun x => key x.1 || key' x.2)
      (a, b) where
  refl := by simp only [first.refl, second.refl, Bool.and_self]
  join := by
    intro x y toX toY
    rw [Bool.and_eq_true] at toX toY ⊢
    exact ⟨first.join toX.1 toY.1, second.join toX.2 toY.2⟩
  key := by
    intro x toX shows
    rw [Bool.and_eq_true] at toX
    rw [Bool.or_eq_true] at shows ⊢
    exact shows.imp (first.key toX.1) (second.key toX.2)

/-- What is made in one way is compared as what it is made of. -/
theorem made {β : Type} {sames : β → β → Bool} {keys : β → Bool} (make : α → β)
    (shape : ∀ a y, sames (make a) y = true ↔ ∃ b, y = make b ∧ same a b = true)
    (shows : ∀ a, keys (make a) = key a) {a : α} (h : Comparable same key a) :
    Comparable sames keys (make a) where
  refl := (shape a _).2 ⟨a, rfl, h.refl⟩
  join := by
    intro x y toX toY
    obtain ⟨b, rfl, toB⟩ := (shape a x).1 toX
    obtain ⟨c, rfl, toC⟩ := (shape a y).1 toY
    exact (shape b _).2 ⟨c, rfl, h.join toB toC⟩
  key := by
    intro x toX here
    obtain ⟨b, rfl, toB⟩ := (shape a x).1 toX
    rw [shows] at here ⊢
    exact h.key toB here

end Comparable

/-! ## Values -/

namespace Json

theorem eqvItems_iff (xs ys : List Json) :
    eqvItems xs ys = true ↔ List.Forall₂ (eqv · · = true) xs ys := by
  induction xs generalizing ys with
  | nil => cases ys <;> simp [eqvItems]
  | cons x rest ih => cases ys <;> simp [eqvItems, ih]

theorem eqvMembers_iff (xs ys : Members) : eqvMembers xs ys = true ↔
    ∀ x ∈ xs, ∃ y, Entries.find? x.1 ys = some y ∧ x.2.eqv y = true := by
  induction xs with
  | nil => simp [eqvMembers]
  | cons x rest ih =>
    obtain ⟨name, x⟩ := x
    rw [eqvMembers, Bool.and_eq_true, ih, List.forall_mem_cons]
    cases Entries.find? name ys <;> simp

theorem eqvObject_iff (xs ys : Members) : eqvObject xs ys = true ↔ xs.length = ys.length ∧
    ∀ x ∈ xs, ∃ y, Entries.find? x.1 ys = some y ∧ x.2.eqv y = true := by
  rw [eqvObject, Bool.and_eq_true, eqvMembers_iff, beq_iff_eq]

theorem hasRefKeyInItems_eq (items : List Json) :
    hasRefKeyInItems items = items.any hasRefKey := by
  induction items with
  | nil => rfl
  | cons item rest ih => rw [hasRefKeyInItems, ih, List.any_cons]

theorem hasRefKeyInMembers_eq (members : Members) :
    hasRefKeyInMembers members = members.any fun member => member.2.hasRefKey := by
  induction members with
  | nil => rfl
  | cons member rest ih =>
    obtain ⟨name, value⟩ := member
    rw [hasRefKeyInMembers, ih, List.any_cons]

theorem numEq_join {a b c : Binary64} (toB : a.numEq b = true) (toC : a.numEq c = true) :
    b.numEq c = true := by
  simp only [Binary64.numEq, Bool.or_eq_true, Bool.and_eq_true, beq_iff_eq,
    decide_eq_true_eq] at *
  rcases toB with ⟨zeroA, zeroB⟩ | rfl
  · rcases toC with ⟨-, zeroC⟩ | rfl
    · exact .inl ⟨zeroB, zeroC⟩
    · exact .inl ⟨zeroB, zeroA⟩
  · exact toC

/-- Members that are compared as data. -/
theorem comparable_members {members : Members} (distinct : members.Distinct)
    (each : ∀ member ∈ members, Comparable eqv hasRefKey member.2) :
    Comparable eqvObject (fun members => (obj members).hasRefKey) members := by
  have same : (fun members => (obj members).hasRefKey) = fun members : Members =>
      Entries.contains "$ref" members || members.any fun member => member.2.hasRefKey := by
    funext members
    rw [hasRefKey, hasRefKeyInMembers_eq]
  rw [same]
  exact .entries eqvObject_iff distinct each

/-- A value without parts is equal to such values only, and shows no key. -/
theorem comparable_leaf {value : Json} (own : value.eqv value = true)
    (join : ∀ {b c}, value.eqv b = true → value.eqv c = true → b.eqv c = true)
    (silent : value.hasRefKey = false) : Comparable eqv hasRefKey value :=
  ⟨own, join, fun _ shows => by rw [silent] at shows; cases shows⟩

theorem comparable_arr {items : List Json} (each : ∀ item ∈ items, Comparable eqv hasRefKey item) :
    Comparable eqv hasRefKey (arr items) := by
  have whole : Comparable eqvItems (·.any hasRefKey) items := .list eqvItems_iff each
  refine ⟨by rw [eqv]; exact whole.refl, fun {b c} toB toC => ?_, fun {b} toB shows => ?_⟩
  · cases b <;> simp only [eqv, Bool.false_eq_true] at toB
    cases c <;> simp only [eqv, Bool.false_eq_true] at toC ⊢
    exact whole.join toB toC
  · cases b <;> simp only [eqv, Bool.false_eq_true] at toB
    rw [hasRefKey, hasRefKeyInItems_eq] at shows ⊢
    exact whole.key toB shows

theorem comparable_obj {members : Members} (distinct : members.Distinct)
    (each : ∀ member ∈ members, Comparable eqv hasRefKey member.2) :
    Comparable eqv hasRefKey (obj members) := by
  have whole := comparable_members distinct each
  refine ⟨by rw [eqv]; exact whole.refl, fun {b c} toB toC => ?_, fun {b} toB shows => ?_⟩
  · cases b <;> simp only [eqv, Bool.false_eq_true] at toB
    cases c <;> simp only [eqv, Bool.false_eq_true] at toC ⊢
    exact whole.join toB toC
  · cases b <;> simp only [eqv, Bool.false_eq_true] at toB
    exact whole.key toB shows

mutual

/-- Well-formed values are comparable. -/
theorem comparable : ∀ value : Json, value.WellFormed → Comparable eqv hasRefKey value
  | .null, _ => comparable_leaf rfl
    (fun {b c} toB toC => by cases b <;> cases c <;> simp_all [eqv]) rfl
  | .bool _, _ => comparable_leaf (by simp [eqv])
    (fun {b c} toB toC => by cases b <;> cases c <;> simp_all [eqv]) rfl
  | .int _, _ => comparable_leaf (by simp [eqv])
    (fun {b c} toB toC => by cases b <;> cases c <;> simp_all [eqv]) rfl
  | .float a, _ => comparable_leaf (by simp [eqv, a.numEq_refl])
    (fun {b c} toB toC => by
      cases b <;> cases c <;> simp only [eqv, Bool.false_eq_true] at toB toC ⊢
      exact numEq_join toB toC) rfl
  | .str _, _ => comparable_leaf (by simp [eqv])
    (fun {b c} toB toC => by cases b <;> cases c <;> simp_all [eqv]) rfl
  | .arr items, h => comparable_arr (comparable_items items (wellFormed_arr_iff.1 h))
  | .obj members, h =>
    have ⟨distinct, inside⟩ := wellFormed_obj_iff.1 h
    comparable_obj distinct (comparable_values members inside)

theorem comparable_items : ∀ items : List Json, (∀ item ∈ items, item.WellFormed) →
    ∀ item ∈ items, Comparable eqv hasRefKey item
  | [], _ => by simp
  | item :: rest, h => by
    obtain ⟨here, later⟩ := List.forall_mem_cons.1 h
    exact List.forall_mem_cons.2 ⟨comparable item here, comparable_items rest later⟩

theorem comparable_values : ∀ members : List (String × Json),
    (∀ member ∈ members, member.2.WellFormed) →
      ∀ member ∈ members, Comparable eqv hasRefKey member.2
  | [], _ => by simp
  | (_, value) :: rest, h => by
    obtain ⟨here, later⟩ := List.forall_mem_cons.1 h
    exact List.forall_mem_cons.2 ⟨comparable value here, comparable_values rest later⟩

end

end Json

/-! ## The parts of schemas -/

namespace Json

theorem hasRefKey_append (members more : Members) : (obj (members ++ more)).hasRefKey
    = ((obj members).hasRefKey || (obj more).hasRefKey) := by
  have contains : Entries.contains "$ref" (members ++ more)
      = (Entries.contains "$ref" members || Entries.contains "$ref" more) := by
    rw [Entries.contains, Entries.find?_append, Option.isSome_or]
    rfl
  simp only [hasRefKey, hasRefKeyInMembers_eq, contains, List.any_append]
  ac_rfl

theorem hasRefKey_optionalMember {name : String} (other : name ≠ "$ref") (value : Option Json) :
    (obj (optionalMember name value)).hasRefKey = value.any hasRefKey := by
  cases value <;>
    simp [optionalMember, hasRefKey, hasRefKeyInMembers, Entries.contains, Entries.find?, other]

theorem hasRefKey_single {name : String} (other : name ≠ "$ref") (value : Json) :
    (obj [(name, value)]).hasRefKey = value.hasRefKey :=
  hasRefKey_optionalMember other (some value)

end Json

/-- Whether a schema shows a key when it is written. -/
def Node.showsKey (node : Node) : Bool :=
  node.toJson.hasRefKey

/-- The same of a field. -/
def Field.showsKey (field : Field) : Bool :=
  field.toJson.hasRefKey

/-- Comparison with a definition is as that of equal things. -/
abbrev Node.IsComparable (node : Node) : Prop :=
  Comparable Node.eqv Node.showsKey node

/-- Comparison with a field is as that of equal things. -/
abbrev Field.IsComparable (field : Field) : Prop :=
  Comparable Field.eqv Field.showsKey field

/-- Comparison with members as data is. -/
abbrev Json.AreComparable (members : Members) : Prop :=
  Comparable Json.eqvObject (fun members => (Json.obj members).hasRefKey) members

section Parts

variable {items additional negated : Option Field} {parent child : Option Node}
  {interfaces : List RefNode} {inline : List Node} {properties : Option (Entries Field)}
  {oneOf anyOf : Option (List Field)} {extra : Members}

theorem RefNode.any_map_toJson (interfaces : List RefNode) :
    (interfaces.map RefNode.toJson).any Json.hasRefKey = interfaces.any fun _ => true := by
  simp [List.any_map, Function.comp_def, RefNode.hasRefKey_toJson]

theorem Node.any_optionToJson (x : Option Node) :
    (Node.optionToJson x).toList.any Json.hasRefKey = x.any Node.showsKey := by
  cases x with
  | none => rfl
  | some node => exact Bool.or_false _

theorem Node.any_listToJson (nodes : List Node) :
    (Node.listToJson nodes).any Json.hasRefKey = nodes.any Node.showsKey := by
  rw [Node.listToJson_eq_map, List.any_map]
  rfl

theorem Field.any_optionToJson (x : Option Field) :
    (Field.optionToJson x).any Json.hasRefKey = x.any Field.showsKey := by
  cases x <;> rfl

theorem Field.any_listToJson (fields : List Field) :
    (Field.listToJson fields).any Json.hasRefKey = fields.any Field.showsKey := by
  induction fields with
  | nil => rfl
  | cons field rest ih => rw [Field.listToJson, List.any_cons, List.any_cons, ih]; rfl

theorem Field.any_optionListToJson (x : Option (List Field)) :
    (Field.optionListToJson x).any Json.hasRefKey = x.any (·.any Field.showsKey) := by
  cases x with
  | none => rfl
  | some fields =>
    rw [Option.any_some, ← Field.any_listToJson, ← Json.hasRefKeyInItems_eq]
    rfl

theorem Field.any_namedToJson (x : Option (Entries Field)) :
    (Field.namedToJson x).any Json.hasRefKey
      = x.any fun fields => Entries.contains "$ref" fields || fields.any (·.2.showsKey) := by
  have named (fields : Entries Field) : (Json.obj (Field.entriesToJson fields)).hasRefKey
      = (Entries.contains "$ref" fields || fields.any (·.2.showsKey)) := by
    rw [Json.hasRefKey, Json.hasRefKeyInMembers_eq]
    congr 1
    · induction fields with
      | nil => rfl
      | cons field rest ih =>
        obtain ⟨name, field⟩ := field
        simp only [Entries.contains, Field.entriesToJson, Entries.find?] at ih ⊢
        split
        · rfl
        · exact ih
    · induction fields with
      | nil => rfl
      | cons field rest ih => rw [Field.entriesToJson, List.any_cons, List.any_cons, ih]; rfl
  cases x with
  | none => rfl
  | some fields => exact named fields

/-! ## Schemas -/

theorem RefNode.comparable {r : RefNode} (he : Json.AreComparable r.extra) :
    Comparable RefNode.eqv (fun _ => true) r where
  refl := by simp only [RefNode.eqv, he.refl, BEq.rfl, decide_true, Bool.and_self]
  join := by
    intro b c toB toC
    simp only [RefNode.eqv, Bool.and_eq_true, beq_iff_eq, decide_eq_true_eq] at toB toC ⊢
    exact ⟨⟨toB.1.1.symm.trans toC.1.1, toB.1.2.symm.trans toC.1.2⟩, he.join toB.2 toC.2⟩
  key := fun _ _ => rfl

theorem Node.isComparable_ref {r : RefNode} (he : Json.AreComparable r.extra) :
    (Node.ref r).IsComparable :=
  .made Node.ref (fun a y => by cases y <;> simp [eqv]) (fun a => a.hasRefKey_toJson)
    (RefNode.comparable he)

theorem Node.IsComparable.reference {r : RefNode} (h : (Node.ref r).IsComparable) :
    Comparable RefNode.eqv (fun _ => true) r where
  refl := by simpa [Node.eqv] using h.refl
  join := by
    intro b c toB toC
    have joined := @h.join (.ref b) (.ref c)
    simp only [Node.eqv] at joined
    exact joined toB toC
  key := fun _ _ => rfl

theorem Node.isComparable_plain {value : Json} (h : value.WellFormed) :
    (Node.plain value).IsComparable :=
  .made Node.plain (fun a y => by cases y <;> simp [eqv]) (fun _ => rfl)
    (Json.comparable value h)

theorem Node.isComparable_array (hi : ∀ field ∈ items, field.IsComparable)
    (he : Json.AreComparable extra) : (Node.array items extra).IsComparable := by
  have whole := he.pair (Comparable.option Field.eqvOption_iff hi)
  refine whole.made (fun x => Node.array x.2 x.1) (fun x y => ?_) fun x => ?_
  · cases y <;> simp [eqv, and_comm]
  · rw [showsKey, toJson, Json.hasRefKey_append, Json.hasRefKey_optionalMember (by decide),
      Field.any_optionToJson]

theorem Node.isComparable_composed (hp : ∀ node ∈ parent, node.IsComparable)
    (hc : ∀ node ∈ child, node.IsComparable)
    (hi : ∀ r ∈ interfaces, Comparable RefNode.eqv (fun _ => true) r)
    (hm : ∀ node ∈ inline, node.IsComparable) (he : Json.AreComparable extra) :
    (Node.composed parent child interfaces inline extra).IsComparable := by
  have whole := ((((Comparable.option Node.eqvOption_iff hp).pair
    (Comparable.option Node.eqvOption_iff hc)).pair (Comparable.list RefNode.eqvList_iff hi)).pair
    (Comparable.list Node.eqvList_iff hm)).pair he
  refine whole.made (fun x => Node.composed x.1.1.1.1 x.1.1.1.2 x.1.1.2 x.1.2 x.2)
    (fun x y => ?_) fun x => ?_
  · cases y <;> simp [eqv, and_assoc]
  · have list (items : List Json) : (Json.arr items).hasRefKey = items.any Json.hasRefKey :=
      Json.hasRefKeyInItems_eq items
    rw [showsKey, toJson, Json.hasRefKey_append, Json.hasRefKey_single (by decide), list]
    simp only [List.any_append, Node.any_optionToJson, Node.any_listToJson,
      RefNode.any_map_toJson]
    ac_rfl

theorem Node.isComparable_object
    (hp : ∀ fields ∈ properties, Entries.Distinct fields ∧ ∀ field ∈ fields, field.2.IsComparable)
    (ha : ∀ field ∈ additional, field.IsComparable)
    (ho : ∀ fields ∈ oneOf, ∀ field ∈ fields, field.IsComparable)
    (hy : ∀ fields ∈ anyOf, ∀ field ∈ fields, field.IsComparable)
    (hn : ∀ field ∈ negated, field.IsComparable) (he : Json.AreComparable extra) :
    (Node.object properties additional oneOf anyOf negated extra).IsComparable := by
  have lists {x : Option (List Field)} (h : ∀ fields ∈ x, ∀ field ∈ fields, field.IsComparable) :
      Comparable Field.eqvOptionList (·.any (·.any Field.showsKey)) x :=
    .option Field.eqvOptionList_iff fun fields isFields =>
      .list Field.eqvList_iff (h fields isFields)
  have named := Comparable.option Field.eqvNamed_iff fun fields isFields =>
    Comparable.entries (fun xs ys => by
      rw [Bool.and_eq_true, beq_iff_eq, Field.eqvEntries_iff]) (hp fields isFields).1
      fun field isField => ((hp fields isFields).2 field isField :
        Comparable Field.eqv Field.showsKey field.2)
  have whole := ((((named.pair (.option Field.eqvOption_iff ha)).pair (lists ho)).pair
    (lists hy)).pair (.option Field.eqvOption_iff hn)).pair he
  refine whole.made (fun x =>
    Node.object x.1.1.1.1.1 x.1.1.1.1.2 x.1.1.1.2 x.1.1.2 x.1.2 x.2) (fun x y => ?_) fun x => ?_
  · cases y <;> simp [eqv, and_assoc]
  · simp only [showsKey, toJson, Json.hasRefKey_append]
    rw [Json.hasRefKey_optionalMember (by decide), Json.hasRefKey_optionalMember (by decide),
      Json.hasRefKey_optionalMember (by decide), Json.hasRefKey_optionalMember (by decide),
      Json.hasRefKey_optionalMember (by decide), Field.any_namedToJson, Field.any_optionToJson,
      Field.any_optionToJson, Field.any_optionListToJson, Field.any_optionListToJson]
    ac_rfl

theorem Field.isComparable_ref {r : RefNode} (he : Json.AreComparable r.extra) :
    (Field.ref r).IsComparable :=
  .made Field.ref (fun a y => by cases y <;> simp [eqv]) (fun a => a.hasRefKey_toJson)
    (RefNode.comparable he)

theorem Field.isComparable_plain {value : Json} (h : value.WellFormed) :
    (Field.plain value).IsComparable :=
  .made Field.plain (fun a y => by cases y <;> simp [eqv]) (fun _ => rfl)
    (Json.comparable value h)

theorem Field.isComparable_primitive (he : Json.AreComparable extra) :
    (Field.primitive extra).IsComparable :=
  .made Field.primitive (fun a y => by cases y <;> simp [eqv]) (fun _ => rfl) he

theorem Field.isComparable_schema {node : Node} (h : node.IsComparable) :
    (Field.schema node).IsComparable :=
  .made Field.schema (fun a y => by cases y <;> simp [eqv]) (fun _ => rfl) h

theorem Field.isComparable_array (hi : ∀ field ∈ items, field.IsComparable)
    (he : Json.AreComparable extra) : (Field.array items extra).IsComparable := by
  have whole := he.pair (Comparable.option Field.eqvOption_iff hi)
  refine whole.made (fun x => Field.array x.2 x.1) (fun x y => ?_) fun x => ?_
  · cases y <;> simp [eqv, and_comm]
  · rw [showsKey, toJson, Json.hasRefKey_append, Json.hasRefKey_optionalMember (by decide),
      Field.any_optionToJson]

theorem Field.isComparable_map {field : Field} (hf : field.IsComparable)
    (he : Json.AreComparable extra) : (Field.map field extra).IsComparable := by
  have whole := he.pair hf
  refine whole.made (fun x => Field.map x.2 x.1) (fun x y => ?_) fun x => ?_
  · cases y <;> simp [eqv, and_comm]
  · rw [showsKey, toJson, Json.hasRefKey_append, Json.hasRefKey_single (by decide)]
    rfl

end Parts

/-! ## Reading -/

/-- What is read of the interpreted keys is comparable. -/
structure Parts.AreComparable (parts : Parts) : Prop where
  allOf : ∀ nodes ∈ parts.allOf, ∀ node ∈ nodes, node.IsComparable
  items : ∀ field ∈ parts.items, field.IsComparable
  properties : ∀ fields ∈ parts.properties,
    Entries.Distinct fields ∧ ∀ field ∈ fields, field.2.IsComparable
  additional : ∀ field ∈ parts.additional, field.IsComparable
  oneOf : ∀ fields ∈ parts.oneOf, ∀ field ∈ fields, field.IsComparable
  anyOf : ∀ fields ∈ parts.anyOf, ∀ field ∈ fields, field.IsComparable
  negated : ∀ field ∈ parts.negated, field.IsComparable

section Reading

variable {layout : Layout} {members : Members} {parts : Parts}

theorem Json.areComparable_of_wellFormed (h : (Json.obj members).WellFormed) :
    Json.AreComparable members := by
  obtain ⟨distinct, inside⟩ := Json.wellFormed_obj_iff.1 h
  exact comparable_members distinct fun member isMember =>
    comparable member.2 (inside member isMember)

theorem Json.wellFormed_erase (h : (Json.obj members).WellFormed) (key : String) :
    (Json.obj (Entries.erase key members)).WellFormed := by
  obtain ⟨distinct, inside⟩ := Json.wellFormed_obj_iff.1 h
  exact Json.wellFormed_obj_iff.2 ⟨Entries.distinct_erase distinct key, fun member isMember =>
    inside member ((Entries.erase_sublist key members).subset isMember)⟩

theorem Json.wellFormed_dropTaken {α : Type} (h : (Json.obj members).WellFormed) (key : String)
    (taken : Option α) : (Json.obj (dropTaken key taken members)).WellFormed := by
  cases taken with
  | none => exact h
  | some a => exact wellFormed_erase h key

theorem Node.isComparable_ofMembers {nodes : List Node} {extra : Members}
    (h : ∀ node ∈ nodes, node.IsComparable) (he : Json.AreComparable extra) :
    (Node.ofMembers nodes extra).IsComparable := by
  cases nodes with
  | nil => exact Node.isComparable_composed (by simp) (by simp) (by simp) (by simp) he
  | cons parent rest =>
    obtain ⟨first, later⟩ := List.forall_mem_cons.1 h
    have middle : ∀ node ∈ rest.dropLast, node.IsComparable :=
      fun node isNode => later node ((List.dropLast_sublist _).subset isNode)
    refine Node.isComparable_composed ?_ ?_ ?_ ?_ he
    · rintro node ⟨⟩
      exact first
    · exact fun node isLast => later node (List.mem_of_getLast? isLast)
    · intro r isRef
      obtain ⟨node, isNode, isRef⟩ := List.mem_filterMap.1 isRef
      split at isRef
      · cases isRef
        exact (middle _ isNode).reference
      · cases isRef
    · exact fun node isNode => middle node (List.mem_filter.1 isNode).1

theorem Node.isComparable_ofParts (h : parts.AreComparable)
    (wellFormed : (Json.obj members).WellFormed) :
    (Node.ofParts layout members parts).IsComparable := by
  have erased (key : String) : Json.AreComparable (Entries.erase key members) :=
    Json.areComparable_of_wellFormed (Json.wellFormed_erase wellFormed key)
  unfold Node.ofParts
  split
  · exact Node.isComparable_ref (erased "$ref")
  · rename_i nodes _ found
    exact Node.isComparable_ofMembers (h.allOf nodes found) (erased "allOf")
  · split
    · exact Node.isComparable_array h.items (erased "items")
    · refine Node.isComparable_object h.properties h.additional h.oneOf h.anyOf h.negated ?_
      exact Json.areComparable_of_wellFormed (Json.wellFormed_dropTaken (Json.wellFormed_dropTaken
        (Json.wellFormed_dropTaken (Json.wellFormed_dropTaken (Json.wellFormed_dropTaken wellFormed
          ..) ..) ..) ..) ..)

theorem Field.isComparable_ofParts (h : parts.AreComparable)
    (wellFormed : (Json.obj members).WellFormed) :
    (Field.ofParts layout members parts).IsComparable := by
  have erased (key : String) : Json.AreComparable (Entries.erase key members) :=
    Json.areComparable_of_wellFormed (Json.wellFormed_erase wellFormed key)
  unfold Field.ofParts
  split
  · exact Field.isComparable_ref (erased "$ref")
  · split
    · exact Field.isComparable_schema (Node.isComparable_ofParts h wellFormed)
    · split
      · exact Field.isComparable_array h.items (erased "items")
      · split
        · rename_i additional found
          exact Field.isComparable_map (h.additional additional found)
            (erased "additionalProperties")
        · exact Field.isComparable_primitive (Json.areComparable_of_wellFormed wellFormed)

theorem Field.listOfJson_eq_map (layout : Layout) (values : List Json) :
    Field.listOfJson layout values = values.map (Field.ofJson layout) := by
  induction values with
  | nil => rfl
  | cons value rest ih => rw [Field.listOfJson, ih, List.map_cons]

theorem Field.entriesOfJson_eq_map (layout : Layout) (members : Members) :
    Field.entriesOfJson layout members
      = members.map fun entry => (entry.1, Field.ofJson layout entry.2) := by
  induction members with
  | nil => rfl
  | cons entry rest ih =>
    obtain ⟨name, value⟩ := entry
    rw [Field.entriesOfJson, ih, List.map_cons]

/-- What is read of members is comparable if everything inside is. -/
theorem Parts.areComparable_found (inside : ∀ key value, Entries.find? key members = some value →
      ((Node.ofJson layout value).IsComparable ∧ (Field.ofJson layout value).IsComparable) ∧
        value.WellFormed ∧ ∀ w ∈ value.children,
          (Node.ofJson layout w).IsComparable ∧ (Field.ofJson layout w).IsComparable) :
    (Parts.found layout members).AreComparable := by
  have single {key : String} {field : Field}
      (read : (Entries.find? key members).bind (Json.field? layout) = some field) :
      field.IsComparable := by
    obtain ⟨value, present, read⟩ := Option.bind_eq_some_iff.1 read
    cases value with
    | obj inner => exact Option.some.inj read ▸ (inside key _ present).1.2
    | _ => cases read
  have list {key : String} {fields : List Field}
      (read : (Entries.find? key members).bind (Json.fields? layout) = some fields) :
      ∀ field ∈ fields, field.IsComparable := by
    obtain ⟨value, present, read⟩ := Option.bind_eq_some_iff.1 read
    cases value with
    | arr values =>
      obtain rfl := Option.some.inj read
      intro field member
      rw [Field.listOfJson_eq_map] at member
      obtain ⟨w, isItem, rfl⟩ := List.mem_map.1 member
      exact ((inside key _ present).2.2 w isItem).2
    | _ => cases read
  refine
    { allOf := fun nodes read => ?_
      items := fun field read => ?_
      properties := fun fields read => ?_
      additional := fun field read => single read
      oneOf := fun fields read => list read
      anyOf := fun fields read => list read
      negated := fun field read => single read }
  · obtain ⟨value, present, read⟩ := Option.bind_eq_some_iff.1 read
    cases value with
    | arr values =>
      obtain rfl := Option.some.inj read
      intro node member
      rw [Node.listOfJson_eq_map] at member
      obtain ⟨w, isItem, rfl⟩ := List.mem_map.1 member
      exact ((inside _ _ present).2.2 w isItem).1
    | _ => cases read
  · obtain ⟨value, present, read⟩ := Option.bind_eq_some_iff.1 read
    exact Option.some.inj read ▸ (inside _ _ present).1.2
  · obtain ⟨value, present, read⟩ := Option.bind_eq_some_iff.1 read
    cases value with
    | obj inner =>
      obtain rfl := Option.some.inj read
      obtain ⟨-, wellFormed, inside⟩ := inside _ _ present
      rw [Field.entriesOfJson_eq_map]
      refine ⟨?_, fun entry member => ?_⟩
      · simpa [Entries.Distinct, Entries.keys, Function.comp_def]
          using (Json.wellFormed_obj_iff.1 wellFormed).1
      · obtain ⟨entry, isEntry, rfl⟩ := List.mem_map.1 member
        exact (inside entry.2 (List.mem_map_of_mem isEntry)).2
    | _ => cases read

end Reading

/-- **What is read from a well-formed value is comparable**, by induction on its size. -/
theorem isComparable_ofJson (layout : Layout) (value : Json) (wellFormed : value.WellFormed) :
    (Node.ofJson layout value).IsComparable ∧ (Field.ofJson layout value).IsComparable := by
  induction size : sizeOf value using Nat.strong_induction_on generalizing value with
  | _ n ih =>
    subst size
    cases value with
    | obj members =>
      have distinct := (Json.wellFormed_obj_iff.1 wellFormed).1
      have parts : (Parts.found layout members).AreComparable := by
        refine Parts.areComparable_found fun key value present => ?_
        have child : value ∈ (Json.obj members).children :=
          List.mem_map_of_mem (Entries.mem_of_find? present)
        have small := sizeOf_of_mem_children child
        have wellFormed := wellFormed_of_mem_children wellFormed child
        refine ⟨ih _ small _ wellFormed rfl, wellFormed, fun w member => ?_⟩
        have smaller := sizeOf_of_mem_children member
        exact ih _ (smaller.trans small) w (wellFormed_of_mem_children wellFormed member) rfl
      rw [Node.ofJson_obj distinct, Field.ofJson_obj distinct]
      exact ⟨Node.isComparable_ofParts parts wellFormed,
        Field.isComparable_ofParts parts wellFormed⟩
    | _ => exact ⟨Node.isComparable_plain wellFormed, Field.isComparable_plain wellFormed⟩

end SchemaBundle
