import SchemaBundle.Proofs.Resolve.Levels
import SchemaBundle.Proofs.Resolve.Capture
import SchemaBundle.Proofs.Resolve.Limit

/-!
# What stands just beyond the depth limit

A walk that starts with some room comes to the limit at one level of a schema, and the same is true
of each fragment that it merges, whose room is what the limit leaves below the reference. The parts
on that level are the `frontier` of a `Ground`: they start beyond the limit, and what is below them
is not reached.

Every schema on a frontier is left as it is and reported once. An interface is not: it is followed
whatever room is left. So nothing passes the limit exactly if no interface stands on a frontier
(`walk_frontier`), and a composition at the limit shows that one can (`walk_passesLimit`).
-/

namespace SchemaBundle

open Walk

/-! ## Reports about depth -/

/-- A warning about a subtree that is too deep. -/
def Warning.isCut (warning : Warning) : Bool :=
  match warning.kind with
  | .depthExceeded _ => true
  | _ => false

/-- The warnings about subtrees that are too deep. -/
def Pass.cuts (p : Pass) : List Warning :=
  p.warnings.filter Warning.isCut

/-- The warning for a stop, if the stop is a schema that is too deep. -/
def Stop.cut? (limit : Nat) (root : Url) : Stop → Option Warning
  | .tooDeep scope => some (.tooDeep (scope.base root).text limit)
  | .reference _ _ => none

namespace Event

/-- The stop beyond the limit that is come to. -/
def edge? (limit : Nat) : Event → Option Stop
  | .refused _ scope => some (.tooDeep scope)
  | .followed depth scope r => if limit < depth then some (.reference scope r) else none
  | .opened depth scope r _ _ => if limit < depth then some (.reference scope r) else none
  | _ => none

/-- The warning about depth that is given. -/
def cut? (limit : Nat) (root : Url) (event : Event) : Option Warning :=
  (event.edge? limit).bind (Stop.cut? limit root)

end Event

section Cuts

variable {setting : Setting} {event : Event} {events : List Event} {p q : Pass}

theorem Warning.isCut_unresolved (reference : String) (e : ResolveError) :
    (Warning.unresolved reference e).isCut = false := by
  cases e <;> rfl

theorem Pass.cuts_warn {warning : Warning} (other : warning.isCut = false) (p : Pass) :
    (p.warn warning).cuts = p.cuts := by
  simp [Pass.cuts, Pass.warn, other]

theorem Walk.Quiet.cuts {scope : Scope} {r r' : RefNode} (h : Quiet setting scope r p r' q) :
    q.cuts = p.cuts := by
  cases h.follows (tooDeep setting) with
  | kept stays =>
    unfold Pass.checked
    split
    · rfl
    · split
      · rfl
      · exact Pass.cuts_warn rfl p
  | @failed e s leaves merging =>
    rw [Pass.cuts_warn (Warning.isCut_unresolved ..)]
    cases merging <;> rfl
  | resolved leaves merging =>
    cases merging with
    | backToRoot | known | reused => rfl
    | @merged t node node' natural name s located outside unnamed read placed visited =>
      exact absurd ⟨leaves, located, outside, unnamed, natural, read, placed⟩
        (h.opensNone t node name)

theorem Pass.cuts_closed (t : Target) (name : String) (node : Node) (p q : Pass) :
    (p.closed t name node q).cuts = q.cuts := by
  have none : (node.verbatimRefs.map fun reference =>
      Warning.unmodeled reference t.location.text).filter Warning.isCut = [] := by
    rw [List.filter_eq_nil_iff]
    intro warning member
    obtain ⟨reference, -, rfl⟩ := List.mem_map.1 member
    exact Bool.false_ne_true
  simp [Pass.cuts, Pass.closed, Pass.inserted, Pass.reported, none]

/-- An event reports a subtree as too deep exactly if one is refused. -/
theorem Event.Leads.cuts (h : event.Leads setting p q) :
    q.cuts
      = p.cuts ++ (event.cut? setting.options.maxDepth p.cache.root).toList := by
  cases h with
  | looked | put => exact (List.append_nil _).symm
  | @refused depth scope p beyond =>
    simp [Pass.cuts, reportDepth, run_modify, Pass.warn, Event.cut?, Event.edge?, Stop.cut?,
      Warning.isCut, Warning.tooDeep]
  | @followed depth scope r r' p q quiet =>
    rw [quiet.cuts, Event.cut?, Event.edge?]
    split <;> exact (List.append_nil _).symm
  | opened opens =>
    rw [Event.cut?, Event.edge?]
    split <;> exact (List.append_nil _).symm
  | closed reserved =>
    rw [Pass.cuts_closed]
    exact (List.append_nil _).symm

/-- The subtrees that are reported as too deep in a history are those that are refused in it. -/
theorem Trace.cuts (h : Trace setting events p q) :
    q.cuts
      = p.cuts ++ events.filterMap (Event.cut? setting.options.maxDepth p.cache.root) := by
  induction h with
  | nil => exact (List.append_nil _).symm
  | @cons event events p q s first rest ih =>
    rw [ih, first.cuts, first.before.cache.root, List.append_assoc, List.filterMap_cons]
    cases event.cut? setting.options.maxDepth p.cache.root <;> rfl

end Cuts

/-! ## Frontiers -/

namespace Part

/-- What a walk comes to where a part stands beyond the limit. -/
def edge (scope : Scope) : Part → Stop
  | .schema _ => .tooDeep scope
  | .reference r => .reference scope r

/-- A schema is the same as before; a reference is one still. -/
inductive Kept : Part → Part → Prop
  | schema (a : Schema) : Kept (.schema a) (.schema a)
  | reference (r r' : RefNode) : Kept (.reference r) (.reference r')

end Part

/-- What was walked from its top with some room: a part and what became of it. -/
structure Ground where
  scope : Scope
  room : Nat
  source : Part
  result : Part

namespace Ground

/-- The parts that start beyond the limit, while what they are parts of does not. -/
def frontier (ground : Ground) : List Part :=
  ground.source.level ground.room

/-- What a walk comes to on the frontier. -/
def edges (ground : Ground) : List Stop :=
  ground.frontier.map (Part.edge ground.scope)

/-- The schemas on the frontier are as before. -/
def Kept (ground : Ground) : Prop :=
  List.Forall₂ Part.Kept ground.frontier (ground.result.level ground.room)

end Ground

/-- The fragment of a copy, as it was walked. -/
def Copy.ground (copy : Copy) : Ground :=
  ⟨.external copy.target.location, copy.room, copy.source.part, copy.result.part⟩

/-- What a walk went over: what it started with, and the fragments that it merged. -/
def grounds (start : Ground) (events : List Event) : List Ground :=
  start :: (events.filterMap Event.copy?).map Copy.ground

/-- **Nothing passes the limit**: no reference beyond it is followed, every part on a frontier is
left as it is, and there is one report for each. -/
structure Confined (limit : Nat) (start : Ground) (events : List Event) (p q : Pass) : Prop where
  follows : ∀ event ∈ events, ∀ scope r, event.edge? limit ≠ some (.reference scope r)
  keeps : ∀ ground ∈ grounds start events,
    ground.result.level ground.room = ground.frontier
  reports : ∃ cuts, q.cuts = p.cuts ++ cuts ∧
    cuts.Perm ((grounds start events).flatMap fun ground => ground.frontier.map fun _ =>
      .tooDeep (ground.scope.base p.cache.root).text limit)

section Runs

variable {setting : Setting} {depth : Nat} {scope : Scope} {xs xs' : List Part} {p q : Pass}
  {events : List Event}

theorem Schema.drop_eq_of_hollow {a b : Schema} (h : b.hollow = a.hollow) : b.drop = a.drop := by
  cases a with
  | node a =>
    cases b with
    | node b => cases a <;> cases b <;> simp_all [hollow, Node.hollow, drop]
    | field b => cases h
  | field a =>
    cases b with
    | node b => cases h
    | field b => cases a <;> cases b <;> simp_all [hollow, Field.hollow, drop]

/-- **What is come to beyond the limit is what stands on the frontiers.** -/
theorem Runs.edges (h : Runs setting depth scope xs p xs' q events) :
    (events.filterMap (Event.edge? setting.options.maxDepth)).Perm
      (xs.flatMap (fun x =>
          (x.level (setting.options.maxDepth + 1 - depth)).map (Part.edge scope))
        ++ (events.filterMap Event.copy?).flatMap fun copy => copy.ground.edges) := by
  induction h with
  | nil => exact .refl _
  | cons _ _ first rest =>
    rw [List.flatMap_singleton] at first
    rw [List.filterMap_append, List.filterMap_append, List.flatMap_cons]
    exact (first.append rest).trans (append_flatMap_perm ..).symm
  | @looked depth scope a a' p q events within inside hollow ih =>
    obtain ⟨room, isRoom⟩ : ∃ room, setting.options.maxDepth + 1 - depth = room + 1 :=
      ⟨setting.options.maxDepth - depth, by omega⟩
    have same : a.parts.flatMap (fun x =>
          (x.level (setting.options.maxDepth + 1 - (depth + a.drop))).map (Part.edge scope))
        = ((Part.schema a).level (room + 1)).map (Part.edge scope) := by
      rw [Part.level, Part.below]
      rcases a.drop_cases with below | ⟨here, r, only⟩
      · have isRoom : setting.options.maxDepth + 1 - (depth + 1) = room := by omega
        rw [below, if_neg Nat.one_ne_zero, isRoom, List.map_flatMap]
      · rw [here, only, if_pos rfl]
        simp only [Nat.add_zero, isRoom]
        rfl
    rw [same] at ih
    rw [List.flatMap_singleton, isRoom]
    exact ih
  | @refused depth scope a p beyond =>
    rw [List.flatMap_singleton, Nat.sub_eq_zero_of_le beyond]
    exact .refl _
  | @followed depth scope r r' p q quiet =>
    rw [List.flatMap_singleton]
    by_cases beyond : setting.options.maxDepth < depth
    · rw [Nat.sub_eq_zero_of_le beyond]
      simp [Event.edge?, Event.copy?, beyond, Part.level, Part.edge]
    · obtain ⟨room, isRoom⟩ : ∃ room, setting.options.maxDepth + 1 - depth = room + 1 :=
        ⟨setting.options.maxDepth - depth, by omega⟩
      rw [isRoom]
      simp [Event.edge?, Event.copy?, beyond, Part.level, Part.below]
  | @opened depth scope r t node node' name p q events opens inside ih =>
    have below : setting.options.maxDepth + 1 - (depth + 1) = setting.options.maxDepth - depth := by
      omega
    rw [List.flatMap_singleton, below] at ih
    let copy : Copy := ⟨t, name, node, setting.options.maxDepth - depth, node'⟩
    have inner : (events.filterMap (Event.edge? setting.options.maxDepth)).Perm
        ((events.filterMap Event.copy? ++ [copy]).flatMap fun copy => copy.ground.edges) := by
      rw [List.flatMap_append, List.flatMap_singleton]
      exact ih.trans List.perm_append_comm
    rw [List.flatMap_singleton]
    simp only [List.filterMap_cons, List.filterMap_append, Event.edge?, Event.copy?,
      List.filterMap_nil, List.append_nil]
    by_cases beyond : setting.options.maxDepth < depth
    · rw [Nat.sub_eq_zero_of_le beyond]
      simp only [beyond, if_true]
      exact inner.cons _
    · obtain ⟨room, isRoom⟩ : ∃ room, setting.options.maxDepth + 1 - depth = room + 1 :=
        ⟨setting.options.maxDepth - depth, by omega⟩
      rw [isRoom]
      simp only [beyond, if_false]
      exact inner

/-- Schemas on a frontier are as before. -/
theorem Runs.kept (h : Runs setting depth scope xs p xs' q events) :
    List.Forall₂ Part.Kept (xs.flatMap (Part.level (setting.options.maxDepth + 1 - depth)))
      (xs'.flatMap (Part.level (setting.options.maxDepth + 1 - depth))) ∧
    ∀ copy ∈ events.filterMap Event.copy?, copy.ground.Kept := by
  induction h with
  | nil => exact ⟨.nil, fun copy member => absurd member List.not_mem_nil⟩
  | cons _ _ first rest =>
    rw [List.flatMap_singleton, List.flatMap_singleton] at first
    rw [List.filterMap_append]
    exact ⟨List.rel_append first.1 rest.1,
      List.forall_mem_append.2 ⟨first.2, rest.2⟩⟩
  | @looked depth scope a a' p q events within inside hollow ih =>
    obtain ⟨room, isRoom⟩ : ∃ room, setting.options.maxDepth + 1 - depth = room + 1 :=
      ⟨setting.options.maxDepth - depth, by omega⟩
    refine ⟨?_, ih.2⟩
    rw [List.flatMap_singleton, List.flatMap_singleton, isRoom, Part.level, Part.level, Part.below,
      Part.below, Schema.drop_eq_of_hollow hollow]
    rcases a.drop_cases with below | ⟨here, -⟩
    · have isRoom : setting.options.maxDepth + 1 - (depth + 1) = room := by omega
      rw [below, isRoom] at ih
      rw [below, if_neg Nat.one_ne_zero, if_neg Nat.one_ne_zero]
      exact ih.1
    · rw [here, if_pos rfl]
      exact .nil
  | @refused depth scope a p beyond =>
    rw [Nat.sub_eq_zero_of_le beyond]
    exact ⟨.cons (.schema a) .nil, fun copy member => absurd member List.not_mem_nil⟩
  | @followed depth scope r r' p q quiet =>
    refine ⟨?_, fun copy member => absurd member List.not_mem_nil⟩
    cases setting.options.maxDepth + 1 - depth with
    | zero => exact .cons (.reference r r') .nil
    | succ room => exact .nil
  | @opened depth scope r t node node' name p q events opens inside ih =>
    have below : setting.options.maxDepth + 1 - (depth + 1) = setting.options.maxDepth - depth := by
      omega
    rw [List.flatMap_singleton, List.flatMap_singleton, below] at ih
    constructor
    · cases setting.options.maxDepth + 1 - depth with
      | zero => exact .cons (.reference r _) .nil
      | succ room => exact .nil
    · simp only [List.filterMap_cons, List.filterMap_append, Event.copy?, List.filterMap_nil]
      exact List.forall_mem_append.2 ⟨ih.2, List.forall_mem_singleton.2 ih.1⟩

end Runs

/-! ## What passes the limit -/

section Confined

variable {limit : Nat} {root : Url} {start ground : Ground} {events : List Event} {p q : Pass}

/-- A frontier without interfaces is as before. -/
theorem Ground.Kept.eq (h : ground.Kept) (none : ∀ r, .reference r ∉ ground.frontier) :
    ground.result.level ground.room = ground.frontier := by
  unfold Ground.Kept at h
  generalize ground.frontier = before at h none ⊢
  generalize ground.result.level ground.room = after at h ⊢
  induction h with
  | nil => rfl
  | @cons x x' xs xs' first _ ih =>
    rw [ih fun r member => none r (List.mem_cons_of_mem _ member)]
    cases first with
    | schema a => rfl
    | reference r => exact absurd (List.mem_cons_self ..) (none r)

/-- Every part of a frontier without interfaces is reported. -/
theorem Ground.cuts_of_noReference (none : ∀ r, .reference r ∉ ground.frontier) :
    ground.edges.filterMap (Stop.cut? limit root)
      = ground.frontier.map fun _ => .tooDeep (ground.scope.base root).text limit := by
  unfold edges
  generalize ground.frontier = parts at none ⊢
  induction parts with
  | nil => rfl
  | cons x rest ih =>
    have rest := ih fun r member => none r (List.mem_cons_of_mem _ member)
    cases x with
    | schema a => exact congrArg (List.cons _) rest
    | reference r => exact absurd (List.mem_cons_self ..) (none r)

/-- Nothing passes the limit exactly if no interface stands on a frontier. -/
theorem confined_iff (kept : ∀ ground ∈ grounds start events, ground.Kept)
    (edges : (events.filterMap (Event.edge? limit)).Perm
      ((grounds start events).flatMap Ground.edges))
    (cuts : ∃ cuts, q.cuts = p.cuts ++ cuts ∧ cuts.Perm
      (((grounds start events).flatMap Ground.edges).filterMap (Stop.cut? limit p.cache.root))) :
    Confined limit start events p q ↔
      ∀ ground ∈ grounds start events, ∀ r, .reference r ∉ ground.frontier := by
  constructor
  · intro confined ground member r there
    have isEdge : .reference ground.scope r ∈ (grounds start events).flatMap Ground.edges :=
      List.mem_flatMap.2 ⟨ground, member, List.mem_map.2 ⟨.reference r, there, rfl⟩⟩
    obtain ⟨event, happened, isEdge⟩ := List.mem_filterMap.1 (edges.mem_iff.2 isEdge)
    exact confined.follows event happened _ _ isEdge
  · intro none
    obtain ⟨cuts, reported, same⟩ := cuts
    refine ⟨fun event happened scope r isEdge => ?_,
      fun ground member => (kept ground member).eq (none ground member), cuts, reported,
      same.trans ?_⟩
    · have isEdge := edges.mem_iff.1 (List.mem_filterMap.2 ⟨event, happened, isEdge⟩)
      obtain ⟨ground, member, isEdge⟩ := List.mem_flatMap.1 isEdge
      obtain ⟨x, there, isEdge⟩ := List.mem_map.1 isEdge
      cases x with
      | schema a => cases isEdge
      | reference r => exact none ground member r there
    · rw [List.filterMap_flatMap]
      refine .of_eq (List.flatMap_congr fun ground member => ?_)
      exact Ground.cuts_of_noReference (none ground member)

end Confined

/-- **The limit covers every schema, and no interface.** The walk of a schema at a depth leaves the
schemas on the frontiers as they are, its own and those of the fragments that it merges. What it
comes to beyond the limit is what stands there, and the schemas among that are reported, each once.
So nothing passes the limit exactly if no interface stands on a frontier. -/
theorem walk_frontier (setting : Setting) (depth : Nat) (scope : Scope) (a : Schema) (p : Pass) :
    ∃ a' q events,
      let limit := setting.options.maxDepth
      let start : Ground := ⟨scope, limit + 1 - depth, .schema a, .schema a'⟩
      walkSchema setting (limit + 1 - depth) scope a p = (a', q) ∧
      Runs setting depth scope [.schema a] p [.schema a'] q events ∧
      (∀ copy ∈ events.filterMap Event.copy?, copy.BeginsIn limit events) ∧
      (∀ ground ∈ grounds start events, ground.Kept) ∧
      (events.filterMap (Event.edge? limit)).Perm
        ((grounds start events).flatMap Ground.edges) ∧
      (∃ cuts, q.cuts = p.cuts ++ cuts ∧ cuts.Perm
        (((grounds start events).flatMap Ground.edges).filterMap
          (Stop.cut? limit p.cache.root))) ∧
      (Confined limit start events p q ↔
        ∀ ground ∈ grounds start events, ∀ r, .reference r ∉ ground.frontier) := by
  obtain ⟨events, run⟩ := exists_runs setting depth scope [.schema a] p
  let answer := walkSchema setting (setting.options.maxDepth + 1 - depth) scope a p
  have run : Runs setting depth scope [.schema a] p [.schema answer.1] answer.2 events := run
  let start : Ground :=
    ⟨scope, setting.options.maxDepth + 1 - depth, .schema a, .schema answer.1⟩
  obtain ⟨first, copies⟩ := run.kept
  have kept : ∀ ground ∈ grounds start events, ground.Kept := by
    refine List.forall_mem_cons.2 ⟨?_, List.forall_mem_map.2 copies⟩
    rwa [List.flatMap_singleton, List.flatMap_singleton] at first
  have edges : (events.filterMap (Event.edge? setting.options.maxDepth)).Perm
      ((grounds start events).flatMap Ground.edges) := by
    have edges := run.edges
    rwa [List.flatMap_singleton, ← List.flatMap_map] at edges
  have cuts : ∃ cuts, answer.2.cuts = p.cuts ++ cuts ∧ cuts.Perm
      (((grounds start events).flatMap Ground.edges).filterMap
        (Stop.cut? setting.options.maxDepth p.cache.root)) := by
    have reports := (edges.filterMap (Stop.cut? setting.options.maxDepth p.cache.root))
    rw [List.filterMap_filterMap] at reports
    exact ⟨_, run.trace.cuts, reports⟩
  exact ⟨answer.1, answer.2, events, rfl, run, run.beginsIn, kept, edges, cuts,
    confined_iff kept edges cuts⟩

namespace Sample

/-- A composition with an interface in another document. -/
def layered : Node :=
  .composed (some (.object none none none none none [("type", .str "object")]))
    (some (.object none none none none none [("type", .str "object")]))
    [⟨"other.yaml#/definitions/Named", .relativeFile, []⟩] [] []

/-- A document that has it. -/
def layeredDocument : Document :=
  ⟨.swagger2, [("Pet", layered)], [("definitions", .null)]⟩

/-- The other document. -/
def named : Fetcher :=
  .inMemory [("file:///other.yaml",
    "definitions: {Named: {properties: {name: {type: string}}}}".toUTF8.toList)]

end Sample

/-- With a limit of zero the interface of a composition is followed nevertheless: its document is
fetched, the fragment merged, and the reference replaced. -/
theorem walk_passesLimit :
    (∀ a' q events,
      let setting := Sample.layeredDocument.setting Sample.named ⟨none, 0, true⟩
      let p := Pass.start Sample.layeredDocument.definitions (Cache.empty Sample.root)
      Runs setting 0 .root [Sample.layered.part] p [.schema a'] q events →
        ¬ Confined 0 ⟨.root, 1, Sample.layered.part, .schema a'⟩ events p q) ∧
    ∃ result, Sample.layeredDocument.resolve Sample.named ⟨none, 0, true⟩ = .ok result ∧
      result.textAt? "Pet" [.interface 0] = some "#/definitions/Named" ∧
      result.report.merged = [⟨"file:///other.yaml#/definitions/Named", "Named"⟩] ∧
      result.report.fetches = 1 := by
  constructor
  · intro a' q events setting p run confined
    have walked : (walkPart setting 1 .root Sample.layered.part p).1 = .schema a' :=
      congrArg Prod.fst (mapM_singleton_run.1 run.walk)
    have same : (Part.schema a').level 1 = Sample.layered.part.level 1 :=
      confined.keeps _ (List.mem_cons_self ..)
    rw [← walked] at same
    have texts := congrArg (List.filterMap fun x => x.reference?.map RefNode.reference) same
    revert texts
    decide +kernel
  · have run : (Sample.layeredDocument.resolve Sample.named ⟨none, 0, true⟩).toOption.map
        (fun result => (result.textAt? "Pet" [.interface 0], result.report.merged,
          result.report.fetches))
        = some (some "#/definitions/Named", [⟨"file:///other.yaml#/definitions/Named", "Named"⟩],
          1) := by
      decide +kernel
    obtain ⟨result, resolved, facts⟩ := exists_of_toOption_map run
    simp only [Prod.mk.injEq] at facts
    exact ⟨result, resolved, facts⟩

end SchemaBundle
