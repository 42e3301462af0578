import SchemaBundle.Proofs.Resolve.Runs

/-!
# The history of a run

Each event of a history leads from one pass to another (`Event.Leads`). So a history is a `Trace`
that can be cut anywhere, also in the middle of a merge, and what one event keeps the whole history
keeps. In this way it is found

* which names are in use after some events: those that were, and those for which a merge began
  (`Trace.inUse_iff`);
* when a definition is reported as missing: where a reference to it is followed while its name is
  not in use (`Trace.dangles_iff`);
* that a reference that was followed has its target merged or cannot be resolved (`Trace.decided`).
-/

namespace SchemaBundle

open Walk

/-! ## Readings -/

namespace Pass

/-- A name is in the registry, or was handed out to a fragment. -/
def InUse (name : String) (p : Pass) : Prop :=
  name ∈ Entries.keys p.definitions ∨ p.cache.isReserved name = true

/-- The definition of a name was reported as missing. -/
def Dangles (name : String) (p : Pass) : Prop :=
  ∃ warning ∈ p.warnings, warning.kind = .danglingReference name

end Pass

namespace Event

/-- The copy that is put into the registry. -/
def copy? : Event → Option Copy
  | .closed copy => some copy
  | _ => none

/-- The fragment whose merge begins, with its name. -/
def fragment? : Event → Option (Target × String)
  | .opened _ _ _ target name => some (target, name)
  | _ => none

/-- The name that is taken into use. -/
def name? (event : Event) : Option String :=
  event.fragment?.map (·.2)

/-- The stop that is come to. -/
def stop? : Event → Option Stop
  | .refused _ scope => some (.tooDeep scope)
  | .followed _ scope r => some (.reference scope r)
  | .opened _ scope r _ _ => some (.reference scope r)
  | _ => none

/-- A reference that stays in the root document is followed, and its definition is missing. -/
def Flags (layout : Layout) (name : String) (p : Pass) : Event → Prop
  | .followed _ scope r =>
    ¬ r.Leaves scope ∧ layout.localName? r.reference = some name ∧ ¬ p.InUse name
  | _ => False

end Event

/-! ## One event -/

/-- What an event does to a pass. -/
inductive Event.Leads (setting : Setting) : Event → Pass → Pass → Prop
  | looked {depth : Nat} {p : Pass} (within : depth ≤ setting.options.maxDepth) :
    Leads setting (.looked depth) p p
  | refused {depth : Nat} {scope : Scope} {p : Pass} (beyond : setting.options.maxDepth < depth) :
    Leads setting (.refused depth scope) p (reportDepth setting scope p).2
  | followed {depth : Nat} {scope : Scope} {r r' : RefNode} {p q : Pass}
      (quiet : Quiet setting scope r p r' q) :
    Leads setting (.followed depth scope r) p q
  | opened {depth : Nat} {scope : Scope} {r : RefNode} {t : Target} {node : Node} {name : String}
      {p : Pass} (opens : Opens setting scope r p t node name) :
    Leads setting (.opened depth scope r t name) p (p.opened setting.fetcher t name)
  | closed {copy : Copy} {p q : Pass} (reserved : q.cache.isReserved copy.name = true) :
    Leads setting (.closed copy) q (p.closed copy.target copy.name copy.result q)
  | put {position : Nat} {name : String} {node node' : Node} {p : Pass}
      (here : p.definitions[position]? = some (name, node)) :
    Leads setting (.put position (name, node')) p (p.put position (name, node'))

namespace Pass

variable {name : String} {p q : Pass}

theorem inUse_recorded {key : TargetKey} {other : String} :
    (p.recorded key other).InUse name ↔ p.InUse name ∨ name = other := by
  unfold InUse recorded
  rw [Cache.isReserved_record]
  tauto

@[simp] theorem inUse_loaded {fetcher : Fetcher} {location : Url} :
    (p.loaded fetcher location).InUse name ↔ p.InUse name := by
  simp [InUse, loaded]

theorem inUse_opened {fetcher : Fetcher} {t : Target} {other : String} :
    (p.opened fetcher t other).InUse name ↔ p.InUse name ∨ name = other := by
  rw [opened, inUse_recorded, inUse_loaded]
  simp [InUse, marked, Cache.isReserved]

@[simp] theorem isReserved_closed {t : Target} {node : Node} {other : String} :
    (p.closed t other node q).cache.isReserved name = q.cache.isReserved name := by
  unfold closed released
  split <;> rfl

theorem keys_closed (t : Target) (other : String) (node : Node) (p q : Pass) :
    Entries.keys (p.closed t other node q).definitions
      = if other ∈ Entries.keys q.definitions then Entries.keys q.definitions
        else Entries.keys q.definitions ++ [other] := by
  simp [closed, inserted, reported, Entries.keys_insert]

theorem inUse_closed {t : Target} {node : Node} {other : String}
    (reserved : q.cache.isReserved other = true) :
    (p.closed t other node q).InUse name ↔ q.InUse name := by
  unfold InUse
  rw [keys_closed, isReserved_closed]
  split
  · rfl
  · rw [List.mem_append, List.mem_singleton]
    constructor
    · rintro ((present | rfl) | handed)
      · exact .inl present
      · exact .inr reserved
      · exact .inr handed
    · exact .imp_left .inl

theorem dangles_warn {warning : Warning} :
    (p.warn warning).Dangles name ↔ p.Dangles name ∨ warning.kind = .danglingReference name := by
  simp [Dangles, warn, or_and_right, exists_or]

/-- Looking up a local reference reports its definition if the name is not in use. -/
theorem dangles_checked {layout : Layout} {reference : String} :
    (p.checked layout reference).Dangles name ↔
      p.Dangles name ∨ layout.localName? reference = some name ∧ ¬ p.InUse name := by
  unfold checked
  cases found : layout.localName? reference with
  | none => simp
  | some other =>
    have used : (Entries.contains other p.definitions ∨ p.cache.isReserved other)
        ↔ p.InUse other := by rw [InUse, ← Entries.contains_iff]
    dsimp only
    rw [Option.some.injEq]
    by_cases isUsed : p.InUse other
    · rw [if_pos (used.2 isUsed), or_iff_left]
      rintro ⟨rfl, free⟩
      exact free isUsed
    · rw [if_neg (fun h => isUsed (used.1 h)), dangles_warn, Warning.dangling,
        WarningKind.danglingReference.injEq]
      refine or_congr_right ⟨fun same => ⟨same, same ▸ isUsed⟩, And.left⟩

theorem dangles_closed {t : Target} {node : Node} {other : String} :
    (p.closed t other node q).Dangles name ↔ q.Dangles name := by
  simp [Dangles, closed, inserted, reported, or_and_right, exists_or, Warning.unmodeled]

/-- A definition at its position keeps its name. -/
theorem keys_put {position : Nat} {node : Node}
    (here : p.definitions[position]? = some (name, node)) (node' : Node) :
    Entries.keys (p.put position (name, node')).definitions = Entries.keys p.definitions :=
  Entries.keys_set here node'

end Pass

section Quiet

variable {setting : Setting} {scope : Scope} {r r' : RefNode} {p q : Pass}

/-- Nothing is put into the registry, and no new name is used. -/
theorem Walk.Quiet.keeps (h : Quiet setting scope r p r' q) :
    p.Before q ∧ q.definitions = p.definitions ∧ q.merged = p.merged ∧
      ∀ name, q.InUse name ↔ p.InUse name := by
  cases h.follows (tooDeep setting) with
  | kept stays =>
    obtain ⟨more, same⟩ := Pass.exists_checked setting.layout r.reference p
    rw [same]
    exact ⟨⟨.refl _, List.prefix_append ..⟩, rfl, rfl, fun name => .rfl⟩
  | @failed e s leaves merging =>
    cases merging with
    | malformed | wholeRoot => exact ⟨Pass.before_warn .., rfl, rfl, fun name => .rfl⟩
    | @unreadable t =>
      exact ⟨(Pass.before_loaded ..).trans (Pass.before_warn ..), rfl, rfl,
        fun name => Pass.inUse_loaded (p := p)⟩
  | resolved leaves merging =>
    cases merging with
    | backToRoot | known => exact ⟨.refl _, rfl, rfl, fun name => .rfl⟩
    | @reused t node natural name located outside unnamed read placed =>
      have unnamed : (p.loaded setting.fetcher t.location).cache.localName? t.key = none := by
        simpa [Pass.loaded] using unnamed
      obtain ⟨-, -, present, found, -⟩ := Pass.present_of_place placed
      have member : name ∈ Entries.keys p.definitions :=
        (Entries.contains_iff ..).1 (by simp [Entries.contains, found])
      refine ⟨(Pass.before_loaded ..).trans (Pass.before_recorded unnamed name), rfl, rfl,
        fun other => ?_⟩
      rw [Pass.inUse_recorded, Pass.inUse_loaded, or_iff_left_of_imp]
      rintro rfl
      exact .inl member
    | @merged t node node' natural name s located outside unnamed read placed =>
      exact absurd ⟨leaves, located, outside, unnamed, natural, read, placed⟩
        (h.opensNone t node name)

theorem Warning.kind_unresolved_ne (reference name : String) (e : ResolveError) :
    (Warning.unresolved reference e).kind ≠ .danglingReference name := by
  cases e <;> simp [Warning.unresolved, WarningKind.ofError]

/-- A definition is reported as missing exactly where a reference stays in the root document and its
name is not in use. -/
theorem Walk.Quiet.dangles_iff (h : Quiet setting scope r p r' q) (depth : Nat) (name : String) :
    q.Dangles name ↔ p.Dangles name ∨
      (Event.followed depth scope r).Flags setting.layout name p := by
  cases h.follows (tooDeep setting) with
  | kept stays => simp only [Pass.dangles_checked, Event.Flags, stays, not_false_eq_true, true_and]
  | @failed e s leaves merging =>
    have unchanged : s.Dangles name ↔ p.Dangles name := by cases merging <;> rfl
    rw [Pass.dangles_warn, unchanged]
    simp [Event.Flags, leaves, Warning.kind_unresolved_ne]
  | resolved leaves merging =>
    have unchanged : q.Dangles name ↔ p.Dangles name := by
      cases merging with
      | backToRoot | known | reused => rfl
      | @merged t node node' natural other s located outside unnamed read placed =>
        exact absurd ⟨leaves, located, outside, unnamed, natural, read, placed⟩
          (h.opensNone t node other)
    simp [unchanged, Event.Flags, leaves]

/-- A reference that was followed has its target merged, or there is something wrong with it. -/
theorem Walk.Quiet.decided (h : Quiet setting scope r p r' q) :
    r.Decided setting.layout q.cache scope := by
  cases h.follows (tooDeep setting) with
  | kept stays => exact fun leaves => absurd leaves stays
  | @failed e s leaves merging =>
    refine fun _ => .inr ⟨e, RefNode.fault?_of_fails leaves ?_⟩
    cases merging with
    | malformed located => exact .malformed located
    | wholeRoot located inRoot whole => exact .wholeRoot located inRoot whole
    | @unreadable t _ located outside unnamed failed =>
      have later := Pass.before_loaded setting.fetcher t.location p
      rw [← later.cache.root] at located outside
      exact .unreadable located outside (Cache.find?_load ..) failed
  | resolved leaves merging =>
    refine fun _ => .inl ?_
    cases merging with
    | @backToRoot t g located inRoot pointer =>
      exact ⟨t, located, .inl ⟨inRoot, by simp [pointer]⟩⟩
    | @known t name located outside named =>
      exact ⟨t, located, .inr ⟨outside, by simp [named]⟩⟩
    | @reused t node natural name located outside unnamed read placed =>
      have later := Pass.before_loaded setting.fetcher t.location p
      rw [← later.cache.root] at located outside
      have named := Cache.localName?_record_self t.key name
        (p.loaded setting.fetcher t.location).cache
      exact ⟨t, located, .inr ⟨outside, by simp [Pass.recorded, named]⟩⟩
    | @merged t node node' natural name s located outside unnamed read placed =>
      exact absurd ⟨leaves, located, outside, unnamed, natural, read, placed⟩
        (h.opensNone t node name)

end Quiet

/-! ## What one event keeps -/

namespace Event.Leads

variable {setting : Setting} {event : Event} {p q : Pass}

theorem before (h : event.Leads setting p q) : p.Before q := by
  cases h with
  | looked within => exact .refl p
  | refused beyond => exact Pass.before_warn ..
  | followed quiet => exact quiet.keeps.1
  | opened opens => exact Pass.before_opened opens.unnamed ..
  | closed reserved => exact Pass.before_closed ..
  | put here => exact ⟨.refl _, List.prefix_rfl⟩

theorem keys (h : event.Leads setting p q) :
    Entries.keys p.definitions <+: Entries.keys q.definitions := by
  cases h with
  | looked | refused | opened => exact List.prefix_rfl
  | followed quiet => exact quiet.keeps.2.1 ▸ List.prefix_rfl
  | closed reserved =>
    rw [Pass.keys_closed]
    split
    · exact List.prefix_rfl
    · exact List.prefix_append ..
  | put here => exact Pass.keys_put here _ ▸ List.prefix_rfl

theorem inUse_iff (h : event.Leads setting p q) (name : String) :
    q.InUse name ↔ p.InUse name ∨ event.name? = some name := by
  cases h with
  | looked | refused => exact (or_iff_left nofun).symm
  | followed quiet =>
    rw [quiet.keeps.2.2.2]
    exact (or_iff_left nofun).symm
  | opened opens => simp [Pass.inUse_opened, name?, fragment?, eq_comm]
  | closed reserved =>
    rw [Pass.inUse_closed reserved]
    exact (or_iff_left nofun).symm
  | put here =>
    rw [Pass.InUse, Pass.keys_put here]
    exact (or_iff_left nofun).symm

theorem dangles_iff (h : event.Leads setting p q) (name : String) :
    q.Dangles name ↔ p.Dangles name ∨ event.Flags setting.layout name p := by
  cases h with
  | looked | opened | put => exact (or_iff_left id).symm
  | refused beyond =>
    refine Pass.dangles_warn.trans (or_congr_right ⟨fun kind => ?_, False.elim⟩)
    simp [Warning.tooDeep] at kind
  | followed quiet => exact quiet.dangles_iff _ name
  | closed reserved => exact Pass.dangles_closed.trans (or_iff_left id).symm

theorem decided (h : event.Leads setting p q) {stop : Stop} (isStop : event.stop? = some stop) :
    stop.Decided setting.layout q.cache := by
  cases h with
  | looked | closed | put => cases isStop
  | refused beyond =>
    cases isStop
    trivial
  | followed quiet =>
    cases isStop
    exact quiet.decided
  | @opened depth scope r t node name p opens =>
    cases isStop
    refine fun leaves => .inl ⟨t, ?_, .inr ⟨?_, ?_⟩⟩
    · rw [(Pass.before_opened opens.unnamed setting.fetcher name).cache.root]
      exact opens.located
    · rw [(Pass.before_opened opens.unnamed setting.fetcher name).cache.root]
      exact opens.outside
    · rw [Pass.opened, Pass.recorded, Cache.localName?_record_self]
      rfl

end Event.Leads

/-! ## Traces -/

/-- Events one after the other lead from one pass to another. -/
inductive Trace (setting : Setting) : List Event → Pass → Pass → Prop
  | nil {p : Pass} : Trace setting [] p p
  | cons {event : Event} {events : List Event} {p q s : Pass} (first : event.Leads setting p q)
      (rest : Trace setting events q s) :
    Trace setting (event :: events) p s

namespace Trace

variable {setting : Setting} {event : Event} {events more : List Event} {p q s : Pass}

theorem single (h : event.Leads setting p q) : Trace setting [event] p q :=
  .cons h .nil

theorem append (hpq : Trace setting events p q) (hqs : Trace setting more q s) :
    Trace setting (events ++ more) p s := by
  induction hpq with
  | nil => exact hqs
  | cons first _ ih => exact .cons first (ih hqs)

/-- A history can be cut anywhere. -/
theorem split (h : Trace setting (events ++ more) p s) :
    ∃ q, Trace setting events p q ∧ Trace setting more q s := by
  induction events generalizing p with
  | nil => exact ⟨p, .nil, h⟩
  | cons event rest ih =>
    cases h with
    | cons first later =>
      obtain ⟨q, earlier, later⟩ := ih later
      exact ⟨q, .cons first earlier, later⟩

theorem before (h : Trace setting events p q) : p.Before q := by
  induction h with
  | nil => exact .refl _
  | cons first _ ih => exact first.before.trans ih

theorem keys (h : Trace setting events p q) :
    Entries.keys p.definitions <+: Entries.keys q.definitions := by
  induction h with
  | nil => exact List.prefix_rfl
  | cons first _ ih => exact first.keys.trans ih

theorem mem_names_cons {name : String} :
    name ∈ (event :: events).filterMap Event.name? ↔
      event.name? = some name ∨ name ∈ events.filterMap Event.name? := by
  simp [List.mem_filterMap]

/-- The names in use are those that were, and those for which a merge began. -/
theorem inUse_iff (h : Trace setting events p q) (name : String) :
    q.InUse name ↔ p.InUse name ∨ name ∈ events.filterMap Event.name? := by
  induction h with
  | nil => simp
  | cons first _ ih => rw [ih, first.inUse_iff, mem_names_cons, or_assoc]

/-- Every event leads on from the pass that those before it led to. -/
theorem leads (h : Trace setting (events ++ event :: more) p s) :
    ∃ q q', Trace setting events p q ∧ event.Leads setting q q' ∧ Trace setting more q' s := by
  obtain ⟨q, earlier, later⟩ := h.split
  cases later with
  | cons here later => exact ⟨q, _, earlier, here, later⟩

/-- A definition is reported as missing exactly if a reference to it is followed at a point of the
history up to which its name was not in use. -/
theorem dangles_iff (h : Trace setting events p q) (name : String) :
    q.Dangles name ↔ p.Dangles name ∨ ∃ earlier depth scope r later,
      events = earlier ++ .followed depth scope r :: later ∧ ¬ r.Leaves scope ∧
        setting.layout.localName? r.reference = some name ∧ ¬ p.InUse name ∧
        name ∉ earlier.filterMap Event.name? := by
  induction h with
  | nil => simp
  | @cons event events p q s first rest ih =>
    rw [ih, first.dangles_iff, first.inUse_iff, or_assoc]
    refine or_congr_right ⟨?_, ?_⟩
    · rintro (flags | ⟨earlier, depth, scope, r, later, rfl, stays, names, free, notYet⟩)
      · cases event with
        | followed depth scope r =>
          obtain ⟨stays, names, free⟩ := flags
          exact ⟨[], depth, scope, r, events, rfl, stays, names, free, List.not_mem_nil⟩
        | _ => cases flags
      · rw [not_or] at free
        have notYet : name ∉ (event :: earlier).filterMap Event.name? := by
          rw [mem_names_cons, not_or]
          exact ⟨free.2, notYet⟩
        exact ⟨event :: earlier, depth, scope, r, later, rfl, stays, names, free.1, notYet⟩
    · rintro ⟨earlier, depth, scope, r, later, same, stays, names, free, notYet⟩
      cases earlier with
      | nil =>
        obtain ⟨rfl, rfl⟩ := List.cons.inj same
        exact .inl ⟨stays, names, free⟩
      | cons other earlier =>
        obtain ⟨rfl, rfl⟩ := List.cons.inj same
        rw [mem_names_cons, not_or] at notYet
        exact .inr ⟨earlier, depth, scope, r, later, rfl, stays, names,
          not_or.2 ⟨free, notYet.1⟩, notYet.2⟩

/-- A reference that was followed has its target merged, or there is something wrong with it. -/
theorem decided (h : Trace setting events p q) {stop : Stop}
    (met : stop ∈ events.filterMap Event.stop?) : stop.Decided setting.layout q.cache := by
  induction h with
  | nil => cases met
  | @cons event events p q s first rest ih =>
    rcases List.mem_filterMap.1 met with ⟨other, member, isStop⟩
    rcases List.mem_cons.1 member with rfl | member
    · exact (first.decided isStop).mono rest.before.cache
    · exact ih (List.mem_filterMap.2 ⟨other, member, isStop⟩)

end Trace

/-! ## Runs are traces -/

section Runs

variable {setting : Setting} {depth : Nat} {scope : Scope} {xs xs' : List Part} {p q : Pass}
  {events : List Event}

/-- A run goes through its events one after the other. -/
theorem Runs.trace (h : Runs setting depth scope xs p xs' q events) :
    Trace setting events p q := by
  induction h with
  | nil => exact .nil
  | cons _ _ first rest => exact first.append rest
  | looked within _ _ ih => exact .cons (.looked within) ih
  | refused beyond => exact .single (.refused beyond)
  | followed quiet => exact .single (.followed quiet)
  | @opened depth scope r t node node' name p q events opens _ ih =>
    have handed : (p.opened setting.fetcher t name).cache.isReserved name = true :=
      (Cache.isReserved_record ..).2 (.inl rfl)
    have reserved : q.cache.isReserved name = true := ih.before.cache.reserved handed
    have closed : Event.Leads setting
        (.closed ⟨t, name, node, setting.options.maxDepth - depth, node'⟩) q
        (p.closed t name node' q) := .closed reserved
    exact .cons (.opened opens) (ih.append (.single closed))

/-- What begins to be merged in a run is merged in it. -/
theorem Runs.fragments (h : Runs setting depth scope xs p xs' q events) :
    (events.filterMap Event.fragment?).Perm
      ((events.filterMap Event.copy?).map fun copy => (copy.target, copy.name)) := by
  induction h with
  | nil | refused | followed => exact .refl _
  | cons _ _ first rest =>
    rw [List.filterMap_append, List.filterMap_append, List.map_append]
    exact first.append rest
  | looked _ _ _ ih => exact ih
  | opened _ _ ih =>
    simp only [List.filterMap_cons, List.filterMap_append, Event.fragment?, Event.copy?,
      List.filterMap_nil, List.append_nil, List.map_append, List.map_cons, List.map_nil]
    exact (ih.cons _).trans (List.perm_append_singleton _ _).symm

/-- **What is come to are the stops of the parts, and those of the fragments that are merged.** -/
theorem Runs.stops_perm (h : Runs setting depth scope xs p xs' q events) :
    (events.filterMap Event.stop?).Perm
      (allStops (xs.flatMap (Part.stops scope (setting.options.maxDepth + 1 - depth)))
        (events.filterMap Event.copy?)) := by
  induction h with
  | nil => exact .refl _
  | cons _ _ first rest =>
    rw [List.flatMap_singleton] at first
    rw [List.flatMap_cons, List.filterMap_append, List.filterMap_append]
    exact (first.append rest).trans (allStops_append ..).symm
  | @looked depth scope a a' p q events within inside hollow ih =>
    obtain ⟨room, isRoom⟩ : ∃ room, setting.options.maxDepth + 1 - depth = room + 1 :=
      ⟨setting.options.maxDepth - depth, by omega⟩
    have below : setting.options.maxDepth + 1 - (depth + a.drop) = room + 1 - a.drop := by omega
    rw [List.flatMap_singleton, isRoom, Part.stops, a.stops_succ, ← below]
    exact ih
  | @refused depth scope a p beyond =>
    have noRoom : a.stops scope 0 = [.tooDeep scope] := by
      cases a <;> simp only [Schema.stops, Node.stops, Field.stops]
    rw [List.flatMap_singleton, Nat.sub_eq_zero_of_le beyond, Part.stops, noRoom]
    exact .refl _
  | followed quiet => exact .refl _
  | @opened depth scope r t node node' name p q events opens _ ih =>
    have below : setting.options.maxDepth + 1 - (depth + 1) = setting.options.maxDepth - depth := by
      omega
    let copy : Copy := ⟨t, name, node, setting.options.maxDepth - depth, node'⟩
    have ih : (events.filterMap Event.stop?).Perm
        (copy.stops ++ (events.filterMap Event.copy?).flatMap Copy.stops) := by
      rwa [List.flatMap_singleton, below] at ih
    simp only [List.filterMap_cons, List.filterMap_append, Event.stop?, Event.copy?,
      List.filterMap_nil, List.append_nil]
    rw [allStops, List.flatMap_singleton, List.flatMap_append, List.flatMap_singleton]
    exact (ih.trans List.perm_append_comm).cons _

/-- The stops of the parts are come to. -/
theorem Runs.stops (h : Runs setting depth scope xs p xs' q events) :
    xs.flatMap (Part.stops scope (setting.options.maxDepth + 1 - depth))
      ⊆ events.filterMap Event.stop? :=
  fun _ isStop => h.stops_perm.mem_iff.2 (List.mem_append_left _ isStop)

theorem Sweeps.trace {n : Nat} (h : Sweeps setting p n q events) : Trace setting events p q := by
  induction h with
  | zero => exact .nil
  | @succ n q s events more name node node' before here inside ih =>
    have out : Event.Leads setting (.put n (name, .plain .null)) q (q.put n (name, .plain .null)) :=
      .put here
    -- the place is still there, under its name
    obtain ⟨standIn, there⟩ : ∃ standIn, s.definitions[n]? = some (name, standIn) := by
      obtain ⟨more, keys⟩ := (Trace.cons out inside.trace).keys
      have named : (Entries.keys q.definitions)[n]? = some name := by simp [Entries.keys, here]
      have named : (Entries.keys s.definitions)[n]? = some name := by
        rw [← keys, List.getElem?_append_left (List.getElem?_eq_some_iff.1 named).1, named]
      simpa [Entries.keys, Prod.ext_iff] using named
    exact ih.append (.cons out (inside.trace.append (.single (.put there))))

end Runs

end SchemaBundle
