import SchemaBundle.Proofs.Resolve.Follow
import SchemaBundle.Proofs.Resolve.Stops

/-!
# What a whole walk keeps

A `WalkLaw` says what one step of a walk does to a pass: an invariant, a relation between the pass
before and after that may depend on the stops in between, what is known of a reference once it was
followed, and what is known after a subtree was cut. Its obligations concern single stops only:
reporting a subtree that is too deep, and following one reference when visits of smaller room keep
the law. `WalkLaw.walkNode` and `WalkLaw.walkField` say that every walk then keeps it, by induction
on the room and, at each level, along the parts of the schema.
-/

namespace SchemaBundle

open Walk

/-- What the steps of a walk keep. -/
structure WalkLaw (setting : Setting) where
  /-- What holds of every pass. -/
  Inv : Pass → Prop
  /-- How a pass is related to a later one, by the stops in between. -/
  Step : List Stop → Pass → Pass → Prop
  /-- The scopes that a walk enters. -/
  Fit : Scope → Prop
  /-- What is known of a reference, of what it became and of a later pass. -/
  Done : Scope → RefNode → RefNode → Pass → Prop
  /-- What is known of a pass after a subtree was cut. -/
  Cut : Scope → Pass → Prop
  step_nil : ∀ p, Step [] p p
  step_append : ∀ {xs ys p q s}, Step xs p q → Step ys q s → Step (xs ++ ys) p s
  done_mono : ∀ {xs scope r r' p q}, Step xs p q → Done scope r r' p → Done scope r r' q
  cut_mono : ∀ {xs scope p q}, Step xs p q → Cut scope p → Cut scope q
  tooDeep : ∀ {scope p}, Fit scope → Inv p →
    Inv (reportDepth setting scope p).2 ∧
      Step [.tooDeep scope] p (reportDepth setting scope p).2 ∧
      Cut scope (reportDepth setting scope p).2
  /-- One reference, when visits with less room keep the law. -/
  follows : ∀ {room : Nat} {visit : Visit} {scope : Scope} {r r' : RefNode} {p q : Pass},
    (∀ {scope node p}, Fit scope → Inv p →
      Inv (visit scope node p).2 ∧ Step (node.stops scope room) p (visit scope node p).2 ∧
        Node.RelWithin (Done scope · · (visit scope node p).2) (Cut scope (visit scope node p).2)
          room node (visit scope node p).1) →
    Fit scope → Inv p → Follows setting visit scope r p r' q →
    Inv q ∧ Step [.reference scope r] p q ∧ Done scope r r' q

namespace WalkLaw

variable {setting : Setting} (law : WalkLaw setting)

/-- A computation with some stops keeps the law, and its answer is as `Q` says in the pass that it
leaves. -/
def Keeps {α : Type} (stops : List Stop) (m : PassM α) (Q : α → Pass → Prop) : Prop :=
  ∀ p, law.Inv p → law.Inv (m p).2 ∧ law.Step stops p (m p).2 ∧ Q (m p).1 (m p).2

/-- What a law says of a visit with some room. -/
def Visits (room : Nat) (visit : Visit) : Prop :=
  ∀ scope node, law.Fit scope →
    law.Keeps (node.stops scope room) (visit scope node) fun node' q =>
      Node.RelWithin (law.Done scope · · q) (law.Cut scope q) room node node'

variable {law}

/-! ## Computations in turn -/

theorem keeps_mapM_option {α β : Type} {f : α → PassM β} {stops : α → List Stop}
    {P : α → β → Pass → Prop} (hf : ∀ a, law.Keeps (stops a) (f a) (P a)) (x : Option α) :
    law.Keeps (x.toList.flatMap stops) (x.mapM f) fun y q => Option.Rel (P · · q) x y := by
  intro p inv
  cases x with
  | none => exact ⟨inv, law.step_nil p, .none⟩
  | some a =>
    obtain ⟨inv, step, h⟩ := hf a p inv
    rw [Option.toList_some, List.flatMap_singleton]
    exact ⟨inv, step, .some h⟩

/-- What is known of the items before has to last through the visits of the later ones. -/
theorem keeps_mapM_list {α β : Type} {f : α → PassM β} {stops : α → List Stop}
    {P : α → β → Pass → Prop} (hf : ∀ a, law.Keeps (stops a) (f a) (P a))
    (last : ∀ {stops a b p q}, law.Step stops p q → P a b p → P a b q) (xs : List α) :
    law.Keeps (xs.flatMap stops) (xs.mapM f) fun ys q => List.Forall₂ (P · · q) xs ys := by
  induction xs with
  | nil => exact fun p inv => ⟨inv, law.step_nil p, .nil⟩
  | cons a rest ih =>
    intro p inv
    rw [List.mapM_cons, List.flatMap_cons]
    obtain ⟨inv₁, step₁, h₁⟩ := hf a p inv
    obtain ⟨inv₂, step₂, h₂⟩ := ih (f a p).2 inv₁
    exact ⟨inv₂, law.step_append step₁ step₂, .cons (last step₂ h₁) h₂⟩

/-! ## Walks -/

/-- What was related in a pass is related in every later one. -/
theorem node_mono {stops : List Stop} {room : Nat} {scope : Scope} {p q : Pass}
    (step : law.Step stops p q) (a b : Node)
    (h : Node.RelWithin (law.Done scope · · p) (law.Cut scope p) room a b) :
    Node.RelWithin (law.Done scope · · q) (law.Cut scope q) room a b :=
  h.mono (fun _ _ => law.done_mono step) (law.cut_mono step)

theorem field_mono {stops : List Stop} {room : Nat} {scope : Scope} {p q : Pass}
    (step : law.Step stops p q) (a b : Field)
    (h : Field.RelWithin (law.Done scope · · p) (law.Cut scope p) room a b) :
    Field.RelWithin (law.Done scope · · q) (law.Cut scope q) room a b :=
  h.mono (fun _ _ => law.done_mono step) (law.cut_mono step)

theorem keeps_follow {room : Nat} {visit : Visit} (visits : law.Visits room visit) {scope : Scope}
    (fit : law.Fit scope) (r : RefNode) :
    law.Keeps [.reference scope r] (follow setting visit scope r)
      fun r' q => law.Done scope r r' q :=
  fun p inv => law.follows (fun fit inv => visits _ _ fit _ inv) fit inv
    (follow_follows setting visit scope r p)

variable (law) in
theorem visits_tooDeep : law.Visits 0 (Walk.tooDeep setting) := by
  intro scope node fit p inv
  obtain ⟨inv, step, cut⟩ := law.tooDeep fit inv
  exact ⟨inv, step, rfl, cut⟩

section Parts

variable {room : Nat} {scope : Scope} (fit : law.Fit scope)

include fit

theorem keeps_composed (node : law.Visits room (walkNode setting room))
    (interface : ∀ scope r, law.Fit scope →
      law.Keeps [.reference scope r] (walkInterface setting room scope r)
        fun r' q => law.Done scope r r' q)
    (parent child : Option Node) (interfaces : List RefNode) (inline : List Node)
    (extra : Members) :
    law.Keeps ((Node.composed parent child interfaces inline extra).stops scope (room + 1))
      (walkNode setting (room + 1) scope (.composed parent child interfaces inline extra))
      fun b q => Node.RelWithin (law.Done scope · · q) (law.Cut scope q) (room + 1)
        (.composed parent child interfaces inline extra) b := by
  intro p inv
  obtain ⟨inv₁, step₁, h₁⟩ := keeps_mapM_option (node scope · fit) parent p inv
  obtain ⟨inv₂, step₂, h₂⟩ := keeps_mapM_option (node scope · fit) child _ inv₁
  obtain ⟨inv₃, step₃, h₃⟩ :=
    keeps_mapM_list (interface scope · fit) law.done_mono interfaces _ inv₂
  obtain ⟨inv₄, step₄, h₄⟩ :=
    keeps_mapM_list (node scope · fit) (node_mono · _ _) inline _ inv₃
  have step₂₄ := law.step_append step₃ step₄
  have step₁₄ := law.step_append step₂ step₂₄
  exact ⟨inv₄, law.step_append step₁ step₁₄, _, _, _, _, rfl,
    optionRel_mono (node_mono step₁₄) h₁, optionRel_mono (node_mono step₂₄) h₂,
    h₃.imp fun _ _ => law.done_mono step₄, h₄⟩

theorem keeps_object
    (field : ∀ scope field, law.Fit scope →
      law.Keeps (Field.stops scope room field) (walkField setting room scope field) fun field' q =>
        Field.RelWithin (law.Done scope · · q) (law.Cut scope q) room field field')
    (properties : Option (List (String × Field))) (additional : Option Field)
    (oneOf anyOf : Option (List Field)) (negated : Option Field) (extra : Members) :
    law.Keeps
      ((Node.object properties additional oneOf anyOf negated extra).stops scope (room + 1))
      (walkNode setting (room + 1) scope (.object properties additional oneOf anyOf negated extra))
      fun b q => Node.RelWithin (law.Done scope · · q) (law.Cut scope q) (room + 1)
        (.object properties additional oneOf anyOf negated extra) b := by
  intro p inv
  have named (entry : String × Field) :
      law.Keeps (Field.stops scope room entry.2)
        (do return (entry.1, ← walkField setting room scope entry.2)) fun entry' q =>
        entry'.1 = entry.1 ∧
          Field.RelWithin (law.Done scope · · q) (law.Cut scope q) room entry.2 entry'.2 := by
    intro p inv
    obtain ⟨inv, step, h⟩ := field scope entry.2 fit p inv
    exact ⟨inv, step, rfl, h⟩
  have fields := keeps_mapM_list (field scope · fit) (field_mono · _ _)
  obtain ⟨inv₁, step₁, h₁⟩ := keeps_mapM_option
    (keeps_mapM_list named fun step h => ⟨h.1, field_mono step _ _ h.2⟩) properties p inv
  obtain ⟨inv₂, step₂, h₂⟩ := keeps_mapM_option (field scope · fit) additional _ inv₁
  obtain ⟨inv₃, step₃, h₃⟩ := keeps_mapM_option fields oneOf _ inv₂
  obtain ⟨inv₄, step₄, h₄⟩ := keeps_mapM_option fields anyOf _ inv₃
  obtain ⟨inv₅, step₅, h₅⟩ := keeps_mapM_option (field scope · fit) negated _ inv₄
  have step₃₅ := law.step_append step₄ step₅
  have step₂₅ := law.step_append step₃ step₃₅
  have step₁₅ := law.step_append step₂ step₂₅
  exact ⟨inv₅, law.step_append step₁ step₁₅, _, _, _, _, _, rfl,
    optionRel_mono (fun _ _ h => h.imp fun _ _ h => ⟨h.1, field_mono step₁₅ _ _ h.2⟩) h₁,
    optionRel_mono (field_mono step₂₅) h₂,
    optionRel_mono (fun _ _ h => h.imp (field_mono step₃₅)) h₃,
    optionRel_mono (fun _ _ h => h.imp (field_mono step₅)) h₄, h₅⟩

end Parts

variable (law) in
/-- Every walk keeps the law, by induction on its room. -/
theorem walk (room : Nat) :
    law.Visits room (walkNode setting room) ∧
    (∀ scope field, law.Fit scope →
      law.Keeps (Field.stops scope room field) (walkField setting room scope field) fun field' q =>
        Field.RelWithin (law.Done scope · · q) (law.Cut scope q) room field field') ∧
    (∀ scope r, law.Fit scope →
      law.Keeps [.reference scope r] (walkInterface setting room scope r) fun r' q =>
        law.Done scope r r' q) := by
  induction room with
  | zero =>
    refine ⟨law.visits_tooDeep, fun scope field fit p inv => ?_, fun scope r fit =>
      keeps_follow law.visits_tooDeep fit r⟩
    obtain ⟨inv, step, cut⟩ := law.tooDeep fit inv
    exact ⟨inv, step, rfl, cut⟩
  | succ room ih =>
    obtain ⟨node, field, interface⟩ := ih
    refine ⟨fun scope a fit p inv => ?_, fun scope a fit p inv => ?_, fun scope r fit =>
      keeps_follow node fit r⟩
    · cases a with
      | ref r =>
        obtain ⟨inv, step, h⟩ := keeps_follow node fit r p inv
        exact ⟨inv, step, _, rfl, h⟩
      | array items extra =>
        obtain ⟨inv, step, h⟩ := keeps_mapM_option (field scope · fit) items p inv
        exact ⟨inv, step, _, rfl, h⟩
      | composed parent child interfaces inline extra =>
        exact keeps_composed fit node interface parent child interfaces inline extra p inv
      | object properties additional oneOf anyOf negated extra =>
        exact keeps_object fit field properties additional oneOf anyOf negated extra p inv
      | plain value => exact ⟨inv, law.step_nil p, rfl⟩
    · cases a with
      | ref r =>
        obtain ⟨inv, step, h⟩ := keeps_follow node fit r p inv
        exact ⟨inv, step, _, rfl, h⟩
      | array items extra =>
        obtain ⟨inv, step, h⟩ := keeps_mapM_option (field scope · fit) items p inv
        exact ⟨inv, step, _, rfl, h⟩
      | map additional extra =>
        obtain ⟨inv, step, h⟩ := field scope additional fit p inv
        exact ⟨inv, step, _, rfl, h⟩
      | schema inner =>
        obtain ⟨inv, step, h⟩ := node scope inner fit p inv
        exact ⟨inv, step, _, rfl, h⟩
      | primitive extra => exact ⟨inv, law.step_nil p, rfl⟩
      | plain value => exact ⟨inv, law.step_nil p, rfl⟩

variable (law)

theorem walkNode (room : Nat) : law.Visits room (Walk.walkNode setting room) :=
  (law.walk room).1

theorem walkField (room : Nat) {scope : Scope} (fit : law.Fit scope) (field : Field) :
    law.Keeps (Field.stops scope room field) (Walk.walkField setting room scope field)
      fun field' q =>
      Field.RelWithin (law.Done scope · · q) (law.Cut scope q) room field field' :=
  (law.walk room).2.1 scope field fit

end WalkLaw

end SchemaBundle
