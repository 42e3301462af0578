import SchemaBundle.Proofs.Resolve.ByParts
import SchemaBundle.Proofs.Resolve.Positions

/-!
# Runs

`Runs` says step by step what a walk does, without a measure that makes it end: depths are counted
upwards, a schema is looked into if its depth is within the limit and left otherwise, and the
fragment behind a reference is walked one level below the reference, however large it is. A
derivation is finite, so a walk that has one comes to an end. It carries the history of the walk,
the list of its `Event`s.

The walk of a part with the room that its depth leaves has a derivation (`exists_runs`), and a
derivation leads to what that walk leaves and nowhere else (`Runs.walk`). The same is said of the
definitions of a document (`Document.exists_run` and `Document.Run.unique`): `Sweeps` takes them out
of the registry one after the other, as a pass does.
-/

namespace SchemaBundle

open Walk

/-- What happens in a pass. -/
inductive Event
  /-- A schema is looked into. -/
  | looked (depth : Nat)
  /-- A schema lies beyond the limit and is left. -/
  | refused (depth : Nat) (scope : Scope)
  /-- A reference is followed, and no fragment is merged for it. -/
  | followed (depth : Nat) (scope : Scope) (r : RefNode)
  /-- A reference is followed, and the merge of its fragment under a name begins. -/
  | opened (depth : Nat) (scope : Scope) (r : RefNode) (target : Target) (name : String)
  /-- The merge of a fragment ends. -/
  | closed (copy : Copy)
  /-- A definition takes its place in the registry again, or `null` stands in for it. -/
  | put (position : Nat) (entry : String × Node)

/-- What a walk of some parts in a scope, at a depth, does to them and to a pass. -/
inductive Runs (setting : Setting) :
    Nat → Scope → List Part → Pass → List Part → Pass → List Event → Prop
  | nil {depth : Nat} {scope : Scope} {p : Pass} : Runs setting depth scope [] p [] p []
  | cons {depth : Nat} {scope : Scope} {x x' : Part} {xs xs' : List Part} {p q s : Pass}
      {events more : List Event} (first : Runs setting depth scope [x] p [x'] q events)
      (rest : Runs setting depth scope xs q xs' s more) :
    Runs setting depth scope (x :: xs) p (x' :: xs') s (events ++ more)
  | looked {depth : Nat} {scope : Scope} {a a' : Schema} {p q : Pass} {events : List Event}
      (within : depth ≤ setting.options.maxDepth)
      (inside : Runs setting (depth + a.drop) scope a.parts p a'.parts q events)
      (hollow : a'.hollow = a.hollow) :
    Runs setting depth scope [.schema a] p [.schema a'] q (.looked depth :: events)
  | refused {depth : Nat} {scope : Scope} {a : Schema} {p : Pass}
      (beyond : setting.options.maxDepth < depth) :
    Runs setting depth scope [.schema a] p [.schema a] (reportDepth setting scope p).2
      [.refused depth scope]
  | followed {depth : Nat} {scope : Scope} {r r' : RefNode} {p q : Pass}
      (quiet : Quiet setting scope r p r' q) :
    Runs setting depth scope [.reference r] p [.reference r'] q [.followed depth scope r]
  | opened {depth : Nat} {scope : Scope} {r : RefNode} {t : Target} {node node' : Node}
      {name : String} {p q : Pass} {events : List Event}
      (opens : Opens setting scope r p t node name)
      (inside : Runs setting (depth + 1) (.external t.location) [node.part]
        (p.opened setting.fetcher t name) [node'.part] q events) :
    Runs setting depth scope [.reference r] p
      [.reference (r.localized (setting.layout.localRef name))] (p.closed t name node' q)
      (.opened depth scope r t name ::
        (events ++ [.closed ⟨t, name, node, setting.options.maxDepth - depth, node'⟩]))

/-! ## Walks have runs -/

section Walk

variable {setting : Setting} {depth room : Nat} {scope : Scope} {p q : Pass}

/-- Either nothing is visited for a reference, or a fragment is merged. -/
theorem follow_cases (setting : Setting) (visit : Visit) (scope : Scope) (r : RefNode) (p : Pass) :
    Quiet setting scope r p (follow setting visit scope r p).1
        (follow setting visit scope r p).2 ∨
      ∃ t node name, Opens setting scope r p t node name ∧
        let (node', q) := visit (.external t.location) node (p.opened setting.fetcher t name)
        follow setting visit scope r p
          = (r.localized (setting.layout.localRef name), p.closed t name node' q) := by
  have follows := follow_follows setting visit scope r p
  generalize follow setting visit scope r p = answer at follows ⊢
  obtain ⟨r', q⟩ := answer
  dsimp only at follows
  cases follows with
  | kept stays => exact .inl ⟨fun other => .kept stays, fun t node name opens => stays opens.leaves⟩
  | failed leaves merging =>
    refine .inl ⟨fun other => .failed leaves ?_, ?_⟩
    · cases merging with
      | malformed located => exact .malformed located
      | wholeRoot located inRoot whole => exact .wholeRoot located inRoot whole
      | unreadable located outside unnamed failed =>
        exact .unreadable located outside unnamed failed
    · rintro t node name ⟨-, located, outside, unnamed, natural, read, placed⟩
      cases merging <;> simp_all
  | resolved leaves merging =>
    cases merging with
    | @merged t node node' natural name s located outside unnamed read placed visited =>
      refine .inr ⟨t, node, name, ⟨leaves, located, outside, unnamed, natural, read, placed⟩, ?_⟩
      rw [Pass.opened, visited]
      rfl
    | backToRoot located inRoot pointer =>
      refine .inl ⟨fun other => .resolved leaves (.backToRoot located inRoot pointer), ?_⟩
      rintro t node name ⟨-, located, outside, -⟩
      simp_all
    | known located outside named =>
      refine .inl ⟨fun other => .resolved leaves (.known located outside named), ?_⟩
      rintro t node name ⟨-, located, -, unnamed, -⟩
      simp_all
    | reused located outside unnamed read placed =>
      refine .inl ⟨fun other => .resolved leaves (.reused located outside unnamed read placed), ?_⟩
      rintro t node name ⟨-, located, -, -, natural, read, placed⟩
      simp_all

theorem walkInterface_eq (setting : Setting) (room : Nat) (scope : Scope) (r : RefNode) :
    walkInterface setting room scope r = follow setting (walkNode setting (room - 1)) scope r := by
  cases room with
  | zero =>
    have same : walkNode setting 0 = tooDeep setting := by
      funext scope node
      rw [walkNode]
    rw [walkInterface, same]
  | succ room => rfl

theorem walkPart_schema_zero (setting : Setting) (scope : Scope) (a : Schema) (p : Pass) :
    walkPart setting 0 scope (.schema a) p = (.schema a, (reportDepth setting scope p).2) := by
  cases a with
  | node a => simp only [walkPart, walkSchema, walkNode]; rfl
  | field a => simp only [walkPart, walkSchema, walkField]; rfl

theorem walkPart_reference {r r' : RefNode}
    (h : follow setting (walkNode setting (room - 1)) scope r p = (r', q)) :
    walkPart setting room scope (.reference r) p = (.reference r', q) := by
  rw [← walkInterface_eq] at h
  exact congrArg (fun answer : RefNode × Pass => (Part.reference answer.1, answer.2)) h

theorem walkPart_node {node node' : Node} :
    walkPart setting room scope node.part p = (node'.part, q)
      ↔ walkNode setting room scope node p = (node', q) := by
  have answer : walkPart setting room scope node.part p
      = ((walkNode setting room scope node p).1.part, (walkNode setting room scope node p).2) := rfl
  rw [answer, Prod.mk.injEq, Node.part_injective.eq_iff, Prod.ext_iff]

/-- The walks of a visit have runs that start at a depth. -/
def HasRuns (setting : Setting) (depth : Nat) (visit : Visit) : Prop :=
  ∀ scope node p, ∃ events, Runs setting depth scope [node.part] p
    [(visit scope node p).1.part] (visit scope node p).2 events

theorem exists_runs_reference {visit : Visit} (visits : HasRuns setting (depth + 1) visit)
    (scope : Scope) (r : RefNode) (p : Pass) :
    ∃ events, Runs setting depth scope [.reference r] p
      [.reference (follow setting visit scope r p).1] (follow setting visit scope r p).2
      events := by
  rcases follow_cases setting visit scope r p with quiet | ⟨t, node, name, opens, answer⟩
  · exact ⟨_, .followed quiet⟩
  · obtain ⟨events, inside⟩ :=
      visits (.external t.location) node (p.opened setting.fetcher t name)
    rw [answer]
    exact ⟨_, .opened opens inside⟩

theorem exists_runs_mapM {f : Part → PassM Part} (xs : List Part)
    (single : ∀ x ∈ xs, ∀ p, ∃ events,
      Runs setting depth scope [x] p [(f x p).1] (f x p).2 events) (p : Pass) :
    ∃ events, Runs setting depth scope xs p (xs.mapM f p).1 (xs.mapM f p).2 events := by
  induction xs generalizing p with
  | nil => exact ⟨[], .nil⟩
  | cons x rest ih =>
    obtain ⟨first, later⟩ := List.forall_mem_cons.1 single
    obtain ⟨events, first⟩ := first p
    obtain ⟨more, rest⟩ := ih later (f x p).2
    rw [List.mapM_cons]
    exact ⟨events ++ more, .cons first rest⟩

/-- Every part has a run, by induction on the room that its depth leaves. At each level the
references come first: the part of a schema that is one stands on the same level. -/
theorem exists_runs_part (room : Nat) : ∀ depth, setting.options.maxDepth + 1 - depth = room →
    ∀ scope x p, ∃ events, Runs setting depth scope [x] p
      [(walkPart setting room scope x p).1] (walkPart setting room scope x p).2 events := by
  have refused (depth : Nat) (isRoom : setting.options.maxDepth + 1 - depth = 0) (scope : Scope)
      (a : Schema) (p : Pass) : ∃ events, Runs setting depth scope [.schema a] p
        [(walkPart setting 0 scope (.schema a) p).1] (walkPart setting 0 scope (.schema a) p).2
        events := by
    rw [walkPart_schema_zero]
    exact ⟨_, .refused (by omega)⟩
  induction room with
  | zero =>
    intro depth isRoom scope x p
    have visits : HasRuns setting (depth + 1) (walkNode setting 0) := fun scope node p =>
      refused (depth + 1) (by omega) scope (.node node) p
    cases x with
    | schema a => exact refused depth isRoom scope a p
    | reference r =>
      have answer := exists_runs_reference visits scope r p
      rwa [← walkInterface_eq setting 0] at answer
  | succ room ih =>
    intro depth isRoom scope x p
    have visits : HasRuns setting (depth + 1) (walkNode setting room) := fun scope node p =>
      ih (depth + 1) (by omega) scope node.part p
    have reference (r : RefNode) (p : Pass) := exists_runs_reference visits scope r p
    cases x with
    | reference r => exact reference r p
    | schema a =>
      have single : ∀ y ∈ a.parts, ∀ p, ∃ events, Runs setting (depth + a.drop) scope [y] p
          [(walkPart setting (room + 1 - a.drop) scope y p).1]
          (walkPart setting (room + 1 - a.drop) scope y p).2 events := by
        rcases a.drop_cases with below | ⟨here, r, only⟩
        · rw [below]
          exact fun y _ => ih (depth + 1) (by omega) scope y
        · rw [here, only]
          exact List.forall_mem_singleton.2 (reference r)
      obtain ⟨events, inside⟩ := exists_runs_mapM a.parts single p
      rw [mapM_parts] at inside
      have within : depth ≤ setting.options.maxDepth := by omega
      exact ⟨.looked depth :: events,
        .looked within inside (hollow_walkSchema setting (room + 1) scope a p)⟩

/-- **A walk ends**: whatever it visits, with the room that its depth leaves, it has a run. -/
theorem exists_runs (setting : Setting) (depth : Nat) (scope : Scope) (xs : List Part) (p : Pass) :
    let answer := xs.mapM (walkPart setting (setting.options.maxDepth + 1 - depth) scope) p
    ∃ events, Runs setting depth scope xs p answer.1 answer.2 events :=
  exists_runs_mapM xs (fun x _ => exists_runs_part _ depth rfl scope x) p

/-! ## Runs are those of walks -/

theorem mapM_singleton_run {f : Part → PassM Part} {x x' : Part} :
    [x].mapM f p = ([x'], q) ↔ f x p = (x', q) := by
  have answer : [x].mapM f p = ([(f x p).1], (f x p).2) := rfl
  rw [answer, Prod.mk.injEq, List.cons.injEq, Prod.ext_iff]
  simp

/-- **A run leads to what the walk leaves**, and nowhere else. -/
theorem Runs.walk {xs xs' : List Part} {events : List Event}
    (h : Runs setting depth scope xs p xs' q events) :
    xs.mapM (walkPart setting (setting.options.maxDepth + 1 - depth) scope) p = (xs', q) := by
  induction h with
  | nil => rfl
  | cons first rest ihFirst ihRest =>
    rw [List.mapM_cons, run_bind, mapM_singleton_run.1 ihFirst, run_bind, ihRest]
    rfl
  | @looked depth scope a a' p q events within inside hollow ih =>
    obtain ⟨room, isRoom⟩ : ∃ room, setting.options.maxDepth + 1 - depth = room + 1 :=
      ⟨setting.options.maxDepth - depth, by omega⟩
    have below : setting.options.maxDepth + 1 - (depth + a.drop) = room + 1 - a.drop := by omega
    rw [below, mapM_parts] at ih
    obtain ⟨parts, pass⟩ := Prod.mk.inj ih
    -- the walk changes the parts as the run does, and neither changes the rest
    have same : (walkSchema setting (room + 1) scope a p).1 = a' :=
      Schema.eq_of_parts ((hollow_walkSchema ..).trans hollow.symm) parts
    rw [mapM_singleton_run, isRoom]
    exact Prod.ext (congrArg Part.schema same) pass
  | refused beyond =>
    rw [mapM_singleton_run, Nat.sub_eq_zero_of_le beyond]
    exact walkPart_schema_zero ..
  | followed quiet =>
    rw [mapM_singleton_run]
    exact walkPart_reference (follow_of_follows (quiet.follows _))
  | @opened depth scope r t node node' name p q events opens inside ih =>
    obtain ⟨leaves, located, outside, unnamed, natural, read, placed⟩ := opens
    have visited := walkPart_node.1 (mapM_singleton_run.1 ih)
    have below : setting.options.maxDepth + 1 - (depth + 1)
        = setting.options.maxDepth + 1 - depth - 1 := by omega
    rw [below] at visited
    rw [mapM_singleton_run]
    exact walkPart_reference (follow_of_follows
      (.resolved leaves (.merged located outside unnamed read placed visited)))

end Walk

/-! ## Runs of a document -/

/-- What a pass does with the first `n` definitions of the registry: each is taken out, walked at
depth zero, and put back. -/
inductive Sweeps (setting : Setting) (p : Pass) : Nat → Pass → List Event → Prop
  | zero : Sweeps setting p 0 p []
  | succ {n : Nat} {q s : Pass} {events more : List Event} {name : String} {node node' : Node}
      (before : Sweeps setting p n q events) (here : q.definitions[n]? = some (name, node))
      (inside : Runs setting 0 .root [node.part] (q.put n (name, .plain .null)) [node'.part] s
        more) :
    Sweeps setting p (n + 1) (s.put n (name, node'))
      (events ++ (.put n (name, .plain .null) :: (more ++ [.put n (name, node')])))

/-- What a sweep leaves is what resolving the positions in turn does. -/
theorem Sweeps.resolves {setting : Setting} {p q : Pass} {n : Nat} {events : List Event}
    (h : Sweeps setting p n q events) : ((List.range n).forM (resolveAt setting) p).2 = q := by
  induction h with
  | zero => rfl
  | @succ n q s events more name node node' before here inside ih =>
    have walked : resolveNode setting node (q.put n (name, .plain .null)) = (node', s) :=
      walkPart_node.1 (mapM_singleton_run.1 inside.walk)
    rw [List.range_succ, forM_concat_run, ih, resolveAt_run here, walked]

/-- Resolving a definition that stands at a position has a run. -/
theorem exists_runs_resolveNode (setting : Setting) (node : Node) (p : Pass) :
    ∃ events, Runs setting 0 .root [node.part] p [(resolveNode setting node p).1.part]
      (resolveNode setting node p).2 events :=
  exists_runs setting 0 .root [node.part] p

namespace Document

/-- A run of a pass over a document at a location. -/
def Run (fetcher : Fetcher) (options : Options) (document : Document) (root : Url)
    (events : List Event) (q : Pass) : Prop :=
  Sweeps (document.setting fetcher options) (Pass.start document.definitions (Cache.empty root))
    document.definitions.length q events

variable {fetcher : Fetcher} {options : Options} {document : Document} {root : Url}

theorem sweeps_passAfter (isLocation : root.IsLocation) (n : Nat)
    (bound : n ≤ document.definitions.length) :
    ∃ events, Sweeps (document.setting fetcher options)
      (Pass.start document.definitions (Cache.empty root)) n
      (document.passAfter fetcher options root n) events := by
  induction n with
  | zero => exact ⟨[], .zero⟩
  | succ n ih =>
    obtain ⟨events, before⟩ := ih (by omega)
    obtain ⟨⟨name, node⟩, entry⟩ : ∃ entry, document.definitions[n]? = some entry :=
      ⟨_, List.getElem?_eq_getElem bound⟩
    obtain ⟨-, ready⟩ :=
      @passAfter_ready fetcher options document root n isLocation (Nat.le_of_lt bound)
    have here := ready entry
    obtain ⟨more, inside⟩ := exists_runs_resolveNode (document.setting fetcher options) node
      ((document.passAfter fetcher options root n).put n (name, .plain .null))
    rw [passAfter_succ, resolveAt_run here]
    exact ⟨_, .succ before here inside⟩

/-- **A pass ends**: it has a run. -/
theorem exists_run (fetcher : Fetcher) (options : Options) (document : Document)
    (isLocation : root.IsLocation) :
    ∃ events, document.Run fetcher options root events (document.lastPass fetcher options root) :=
  sweeps_passAfter isLocation document.definitions.length (Nat.le_refl _)

/-- Every run of a pass leaves the same. -/
theorem Run.unique {events : List Event} {q : Pass}
    (h : document.Run fetcher options root events q) :
    q = document.lastPass fetcher options root :=
  h.resolves.symm

end Document

end SchemaBundle
