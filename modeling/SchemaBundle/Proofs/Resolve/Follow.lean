import SchemaBundle.Resolve.Walk

/-!
# What following one reference can do

`Merging` lists the ways in which following a reference that leaves its scope can end, each with the
pass that it leaves and with all that was asked on the way; `mergeReference_merging` says that there
are no others. `Follows` adds the references that stay, and what becomes of one that fails
(`follow_follows`). Every invariant of a walk is derived from these two, and not from the code.

With the same visits there is only one way (`follow_of_follows`). A reference is `Quiet` if it has
its way without a visit, and otherwise `Opens` a merge.
-/

namespace SchemaBundle

/-! ## Changes of a pass -/

namespace Pass

/-- The pass after the document at a location was asked for. -/
def loaded (fetcher : Fetcher) (location : Url) (pass : Pass) : Pass :=
  { pass with cache := (pass.cache.load fetcher location).2 }

/-- The pass after a fragment received its name. -/
def recorded (key : TargetKey) (name : String) (pass : Pass) : Pass :=
  { pass with cache := pass.cache.record key name }

/-- The pass in which a fragment is being merged. -/
def marked (key : TargetKey) (pass : Pass) : Pass :=
  { pass with cache := (pass.cache.mark key).2 }

/-- The pass in which a fragment is no longer being merged. -/
def finished (key : TargetKey) (pass : Pass) : Pass :=
  { pass with cache := pass.cache.finish key }

/-- The later pass `q` without the mark of a fragment, unless the fragment was marked before. -/
def released (key : TargetKey) (p q : Pass) : Pass :=
  if p.cache.isInProgress key then q else q.finished key

/-- The pass after a fragment was put into the registry. -/
def inserted (target : Target) (name : String) (node : Node) (pass : Pass) : Pass :=
  { pass with
    definitions := Entries.insert name node pass.definitions
    merged := pass.merged ++ [⟨target.key.text, name⟩] }

/-- The pass after the references that a fragment keeps were reported. -/
def reported (location : Url) (node : Node) (pass : Pass) : Pass :=
  { pass with
    warnings := pass.warnings
      ++ node.verbatimRefs.map fun reference => .unmodeled reference location.text }

/-- The pass after a local reference of the root document was looked up. -/
def checked (layout : Layout) (reference : String) (pass : Pass) : Pass :=
  match layout.localName? reference with
  | none => pass
  | some name =>
    if Entries.contains name pass.definitions ∨ pass.cache.isReserved name then pass
    else pass.warn (.dangling reference name)

end Pass

/-- The definition that a target selects in what loading its document gave, with the name that it
would naturally take. -/
def Target.fragmentOf (layout : Layout) (target : Target) (outcome : Except ResolveError Json) :
    Except ResolveError (Node × String) := do
  let value ← target.select (← outcome)
  match target.definitionName? with
  | some name => return (Node.ofJson layout value, name)
  | none => throw (.malformedReference target.key.text .nameless)

/-- A reference that is looked for outside its document, or in a document that is not the root. -/
def RefNode.Leaves (scope : Scope) (r : RefNode) : Prop :=
  r.format.isExternal ∨ scope ≠ .root

theorem RefNode.not_leaves_iff {scope : Scope} {r : RefNode} :
    ¬ r.Leaves scope ↔ !r.format.isExternal ∧ scope = .root := by
  unfold Leaves
  cases r.format.isExternal <;> simp

/-- A reference that could not be merged. -/
def RefNode.unresolved (scope : Scope) (r : RefNode) : RefNode :=
  match scope with
  | .root => r
  | .external base => Walk.pinned base r

namespace Walk

/-! ## The ways to end -/

/-- The ways in which following a reference that leaves its scope can end: with an error or the
local reference, and with a pass. -/
inductive Merging (setting : Setting) (visit : Visit) (scope : Scope) (reference : String)
    (p : Pass) : Except ResolveError String → Pass → Prop
  | malformed {e : ResolveError}
    (located : Target.locate reference (scope.base p.cache.root) = .error e) :
    Merging setting visit scope reference p (.error e) p
  | wholeRoot {t : Target} (located : Target.locate reference (scope.base p.cache.root) = .ok t)
    (inRoot : t.location = p.cache.root) (whole : t.fragment = none) :
    Merging setting visit scope reference p
      (.error (.malformedReference reference .rootWithoutFragment)) p
  | backToRoot {t : Target} {g : String}
    (located : Target.locate reference (scope.base p.cache.root) = .ok t)
    (inRoot : t.location = p.cache.root) (pointer : t.fragment = some g) :
    Merging setting visit scope reference p (.ok ("#" ++ g)) p
  | known {t : Target} {name : String}
    (located : Target.locate reference (scope.base p.cache.root) = .ok t)
    (outside : t.location ≠ p.cache.root) (named : p.cache.localName? t.key = some name) :
    Merging setting visit scope reference p (.ok (setting.layout.localRef name)) p
  | unreadable {t : Target} {e : ResolveError}
    (located : Target.locate reference (scope.base p.cache.root) = .ok t)
    (outside : t.location ≠ p.cache.root) (unnamed : p.cache.localName? t.key = none)
    (failed : t.fragmentOf setting.layout (p.cache.load setting.fetcher t.location).1 = .error e) :
    Merging setting visit scope reference p (.error e) (p.loaded setting.fetcher t.location)
  | reused {t : Target} {node : Node} {natural name : String}
    (located : Target.locate reference (scope.base p.cache.root) = .ok t)
    (outside : t.location ≠ p.cache.root) (unnamed : p.cache.localName? t.key = none)
    (read : t.fragmentOf setting.layout (p.cache.load setting.fetcher t.location).1
      = .ok (node, natural))
    (placed : p.place setting.options natural node = .existing name) :
    Merging setting visit scope reference p (.ok (setting.layout.localRef name))
      ((p.loaded setting.fetcher t.location).recorded t.key name)
  | merged {t : Target} {node node' : Node} {natural name : String} {q : Pass}
    (located : Target.locate reference (scope.base p.cache.root) = .ok t)
    (outside : t.location ≠ p.cache.root) (unnamed : p.cache.localName? t.key = none)
    (read : t.fragmentOf setting.layout (p.cache.load setting.fetcher t.location).1
      = .ok (node, natural))
    (placed : p.place setting.options natural node = .fresh name)
    (visited : visit (.external t.location) node
      (((p.marked t.key).loaded setting.fetcher t.location).recorded t.key name) = (node', q)) :
    Merging setting visit scope reference p (.ok (setting.layout.localRef name))
      (p.released t.key ((q.reported t.location node').inserted t name node'))

/-- The ways in which following a reference can end: with what it becomes, and with a pass. -/
inductive Follows (setting : Setting) (visit : Visit) (scope : Scope) (r : RefNode) (p : Pass) :
    RefNode → Pass → Prop
  | kept (stays : ¬ r.Leaves scope) :
    Follows setting visit scope r p r (p.checked setting.layout r.reference)
  | resolved {reference : String} {q : Pass} (leaves : r.Leaves scope)
    (merging : Merging setting visit scope r.reference p (.ok reference) q) :
    Follows setting visit scope r p { r with reference, format := .internal } q
  | failed {e : ResolveError} {q : Pass} (leaves : r.Leaves scope)
    (merging : Merging setting visit scope r.reference p (.error e) q) :
    Follows setting visit scope r p (r.unresolved scope) (q.warn (.unresolved r.reference e))

/-! ## There are no others -/

theorem run_bind {α β : Type} (x : PassM α) (f : α → PassM β) (p : Pass) :
    (x >>= f) p = f (x p).1 (x p).2 := rfl

theorem run_get (p : Pass) : (get : PassM Pass) p = (p, p) := rfl

theorem run_modify (f : Pass → Pass) (p : Pass) : (modify f : PassM Unit) p = ((), f p) := rfl

theorem run_pure {α : Type} (a : α) (p : Pass) : (pure a : PassM α) p = (a, p) := rfl

theorem warnVerbatim_run (location : Url) (node : Node) (p : Pass) :
    warnVerbatim location node p = ((), p.reported location node) := by
  unfold warnVerbatim Pass.reported
  induction node.verbatimRefs generalizing p with
  | nil => simp [List.forM, run_pure]
  | cons reference rest ih =>
    rw [List.forM, run_bind, run_modify, ih]
    simp [Pass.warn]

theorem readFragment_run (setting : Setting) (target : Target) (p : Pass) :
    readFragment setting target p
      = (target.fragmentOf setting.layout (p.cache.load setting.fetcher target.location).1,
        p.loaded setting.fetcher target.location) := by
  rfl

theorem insertFragment_run (visit : Visit) (target : Target) (name : String) (node : Node)
    (p : Pass) :
    insertFragment visit target name node p
      = ((), ((visit (.external target.location) node p).2.reported target.location
          (visit (.external target.location) node p).1).inserted target name
            (visit (.external target.location) node p).1) := by
  rw [insertFragment, run_bind, run_bind, warnVerbatim_run, run_modify]
  rfl

theorem mergeTarget_run (setting : Setting) (visit : Visit) (target : Target) (p : Pass) :
    mergeTarget setting visit target p =
      match p.cache.localName? target.key with
      | some name => (.ok name, p)
      | none =>
        match target.fragmentOf setting.layout (p.cache.load setting.fetcher target.location).1 with
        | .error e => (.error e, p.loaded setting.fetcher target.location)
        | .ok (node, natural) =>
          match (p.loaded setting.fetcher target.location).place setting.options natural node with
          | .existing name =>
            (.ok name, (p.loaded setting.fetcher target.location).recorded target.key name)
          | .fresh name =>
            (.ok name, (insertFragment visit target name node
              ((p.loaded setting.fetcher target.location).recorded target.key name)).2) := by
  rw [mergeTarget, run_bind, run_get]
  split
  · simp only [*]
    rfl
  · simp only [*]
    rw [run_bind, readFragment_run]
    split
    · simp only [*]
      rfl
    · simp only [*]
      rw [run_bind, run_get]
      split <;> simp only [*] <;> rfl

theorem mergeReference_run (setting : Setting) (visit : Visit) (scope : Scope)
    (reference : String) (p : Pass) :
    mergeReference setting visit scope reference p =
      match Target.locate reference (scope.base p.cache.root) with
      | .error e => (.error e, p)
      | .ok t =>
        if t.location = p.cache.root then
          match t.fragment with
          | some g => (.ok ("#" ++ g), p)
          | none => (.error (.malformedReference reference .rootWithoutFragment), p)
        else
          ((mergeTarget setting visit t (p.marked t.key)).1.map setting.layout.localRef,
            p.released t.key (mergeTarget setting visit t (p.marked t.key)).2) := by
  rw [mergeReference, run_bind, run_get]
  dsimp only
  cases located : Target.locate reference (scope.base p.cache.root) with
  | error e => rfl
  | ok t =>
    dsimp only
    split
    · cases pointer : t.fragment <;> rfl
    · rw [run_bind, run_get, run_bind, run_modify, run_bind]
      by_cases h : p.cache.isInProgress t.key <;>
        simp only [Cache.mark, Pass.marked, Pass.released, h] <;> rfl

end Walk

/-! ## Marks leave no trace -/

namespace Pass

theorem searchFrom_congr {p q : Pass} (hd : q.definitions = p.definitions)
    (hr : q.cache.reserved = p.cache.reserved) (reuse : Bool) (node : Node) (name : String)
    (fuel k : Nat) :
    q.searchFrom reuse node name fuel k = p.searchFrom reuse node name fuel k := by
  induction fuel generalizing k with
  | zero => rfl
  | succ fuel ih =>
    have offer : q.offer? reuse node (candidate name k)
        = p.offer? reuse node (candidate name k) := by
      rw [offer?, offer?, hd, Cache.isReserved, Cache.isReserved, hr]
    rw [searchFrom, searchFrom, offer, ih]

/-- The placement of a fragment hangs on the registry and the names handed out alone. -/
theorem place_congr {p q : Pass} (hd : q.definitions = p.definitions)
    (hr : q.cache.reserved = p.cache.reserved) (options : Options) (name : String) (node : Node) :
    q.place options name node = p.place options name node := by
  simp only [place, hd, hr]
  exact searchFrom_congr hd hr ..

variable {key : TargetKey} (fetcher : Fetcher) (location : Url) (name : String) (p : Pass)

theorem loaded_marked :
    (p.marked key).loaded fetcher location = (p.loaded fetcher location).marked key := by
  simp [loaded, marked, Cache.load_mark]

theorem recorded_marked (other : TargetKey) :
    (p.marked key).recorded other name = (p.recorded other name).marked key := by
  simp [recorded, marked, Cache.record_mark]

theorem released_marked {q : Pass} (h : q.cache.isInProgress key = p.cache.isInProgress key) :
    p.released key (q.marked key) = q := by
  by_cases hp : p.cache.isInProgress key
  · simp [released, marked, hp, Cache.mark_of_isInProgress (h.trans hp)]
  · simp only [Bool.not_eq_true] at hp
    simp [released, marked, finished, hp, Cache.finish_mark (h.trans hp)]

end Pass

namespace Walk

/-- Following a reference that leaves its scope ends in one of the ways listed. -/
theorem mergeReference_merging (setting : Setting) (visit : Visit) (scope : Scope)
    (reference : String) (p : Pass) :
    Merging setting visit scope reference p (mergeReference setting visit scope reference p).1
      (mergeReference setting visit scope reference p).2 := by
  rw [mergeReference_run]
  cases located : Target.locate reference (scope.base p.cache.root) with
  | error e => exact .malformed located
  | ok t =>
    by_cases inRoot : t.location = p.cache.root
    · simp only [inRoot, if_true]
      cases pointer : t.fragment with
      | none => exact .wholeRoot located inRoot pointer
      | some g => exact .backToRoot located inRoot pointer
    · simp only [inRoot, if_false]
      have named : (p.marked t.key).cache.localName? t.key = p.cache.localName? t.key :=
        Cache.localName?_mark ..
      have load : (p.marked t.key).cache.load setting.fetcher t.location
          = ((p.cache.load setting.fetcher t.location).1,
            ((p.cache.load setting.fetcher t.location).2.mark t.key).2) := Cache.load_mark ..
      have place (node : Node) (natural : String) :
          ((p.marked t.key).loaded setting.fetcher t.location).place setting.options natural node
            = p.place setting.options natural node :=
        Pass.place_congr (q := (p.marked t.key).loaded setting.fetcher t.location) (p := p) rfl
          (by simp [Pass.loaded, Pass.marked]) setting.options natural node
      rw [mergeTarget_run, named, load]
      simp only [place]
      cases unnamed : p.cache.localName? t.key with
      | some name =>
        rw [Pass.released_marked p rfl]
        exact .known located inRoot unnamed
      | none =>
        dsimp only
        cases read : t.fragmentOf setting.layout (p.cache.load setting.fetcher t.location).1 with
        | error e =>
          dsimp only
          rw [Pass.loaded_marked, Pass.released_marked p (Cache.isInProgress_load ..)]
          exact .unreadable located inRoot unnamed read
        | ok fragment =>
          obtain ⟨node, natural⟩ := fragment
          dsimp only
          cases placed : p.place setting.options natural node with
          | existing name =>
            dsimp only
            rw [Pass.loaded_marked, Pass.recorded_marked,
              Pass.released_marked p (Cache.isInProgress_load ..)]
            exact .reused located inRoot unnamed read placed
          | fresh name =>
            dsimp only
            rw [insertFragment_run]
            exact .merged located inRoot unnamed read placed rfl

theorem checkLocal_run (setting : Setting) (reference : String) (p : Pass) :
    checkLocal setting reference p = ((), p.checked setting.layout reference) := by
  unfold checkLocal Pass.checked
  cases setting.layout.localName? reference with
  | none => rfl
  | some name =>
    dsimp only
    rw [run_bind, run_get]
    dsimp only
    split <;> rfl

theorem resolveExternal_run (setting : Setting) (visit : Visit) (scope : Scope)
    (reference : String) (p : Pass) :
    resolveExternal setting visit scope reference p =
      match mergeReference setting visit scope reference p with
      | (.ok found, q) => (some found, q)
      | (.error e, q) => (none, q.warn (.unresolved reference e)) := by
  rw [resolveExternal, run_bind]
  generalize mergeReference setting visit scope reference p = answer
  obtain ⟨outcome, q⟩ := answer
  cases outcome <;> rfl

/-- Following a reference ends in one of the ways listed. -/
theorem follow_follows (setting : Setting) (visit : Visit) (scope : Scope) (r : RefNode)
    (p : Pass) :
    Follows setting visit scope r p (follow setting visit scope r p).1
      (follow setting visit scope r p).2 := by
  unfold follow
  by_cases leaves : r.Leaves scope
  · rw [if_neg (fun stays => RefNode.not_leaves_iff.2 stays leaves), run_bind, resolveExternal_run]
    have merging := mergeReference_merging setting visit scope r.reference p
    generalize mergeReference setting visit scope r.reference p = answer at merging ⊢
    obtain ⟨outcome, q⟩ := answer
    cases outcome with
    | ok reference => exact .resolved leaves merging
    | error e => cases scope <;> exact .failed leaves merging
  · rw [if_pos (RefNode.not_leaves_iff.1 leaves), run_bind, checkLocal_run]
    exact .kept leaves

/-! ## Each ends in one way -/

section Unique

variable {setting : Setting} {visit : Visit} {scope : Scope} {reference : String}
  {r r₁ r₂ : RefNode} {p q₁ q₂ : Pass}

theorem Merging.unique {a b : Except ResolveError String}
    (h₁ : Merging setting visit scope reference p a q₁)
    (h₂ : Merging setting visit scope reference p b q₂) : a = b ∧ q₁ = q₂ := by
  cases h₁ with
  | @merged t node node' natural name q located outside unnamed read placed visited =>
    cases h₂ with
    | merged located₂ outside₂ unnamed₂ read₂ placed₂ visited₂ =>
      obtain rfl := Except.ok.inj (located.symm.trans located₂)
      obtain ⟨rfl, rfl⟩ := Prod.mk.inj (Except.ok.inj (read.symm.trans read₂))
      obtain rfl := Pass.Placement.fresh.inj (placed.symm.trans placed₂)
      obtain ⟨rfl, rfl⟩ := Prod.mk.inj (visited.symm.trans visited₂)
      exact ⟨rfl, rfl⟩
    | _ => simp_all
  | _ => cases h₂ <;> simp_all

theorem Follows.unique (h₁ : Follows setting visit scope r p r₁ q₁)
    (h₂ : Follows setting visit scope r p r₂ q₂) : r₁ = r₂ ∧ q₁ = q₂ := by
  cases h₁ with
  | kept stays =>
    cases h₂ with
    | kept => exact ⟨rfl, rfl⟩
    | resolved leaves | failed leaves => exact absurd leaves stays
  | resolved leaves merging =>
    cases h₂ with
    | kept stays => exact absurd leaves stays
    | resolved _ merging₂ =>
      obtain ⟨same, rfl⟩ := merging.unique merging₂
      cases same
      exact ⟨rfl, rfl⟩
    | failed _ merging₂ => cases (merging.unique merging₂).1
  | failed leaves merging =>
    cases h₂ with
    | kept stays => exact absurd leaves stays
    | resolved _ merging₂ => cases (merging.unique merging₂).1
    | failed _ merging₂ =>
      obtain ⟨same, rfl⟩ := merging.unique merging₂
      cases same
      exact ⟨rfl, rfl⟩

/-- The way that is listed is the one that is taken. -/
theorem follow_of_follows (h : Follows setting visit scope r p r₁ q₁) :
    follow setting visit scope r p = (r₁, q₁) := by
  obtain ⟨reference, pass⟩ := (follow_follows setting visit scope r p).unique h
  exact Prod.ext reference pass

end Unique

/-! ## Fragments that are merged -/

/-- Following a reference begins with a fragment to merge: it can be read, it has no name yet, and
there is a free one for it. -/
structure Opens (setting : Setting) (scope : Scope) (r : RefNode) (p : Pass) (t : Target)
    (node : Node) (name : String) : Prop where
  leaves : r.Leaves scope
  located : Target.locate r.reference (scope.base p.cache.root) = .ok t
  outside : t.location ≠ p.cache.root
  unnamed : p.cache.localName? t.key = none
  read : ∃ natural, t.fragmentOf setting.layout (p.cache.load setting.fetcher t.location).1
      = .ok (node, natural) ∧ p.place setting.options natural node = .fresh name

/-- Following a reference ends, and nothing is visited for it. -/
structure Quiet (setting : Setting) (scope : Scope) (r : RefNode) (p : Pass) (r' : RefNode)
    (q : Pass) : Prop where
  follows : ∀ visit, Follows setting visit scope r p r' q
  opensNone : ∀ t node name, ¬ Opens setting scope r p t node name

end Walk

end SchemaBundle
