import SchemaBundle.Proofs.Resolve.Knowledge
import SchemaBundle.Proofs.Resolve.Law
import SchemaBundle.Proofs.Resolve.Place

/-!
# How a walk makes the registry grow

A walk adds `Copy`s to the registry. `Adds` relates the passes before and after: which copies were
added, and that each was new. `Merges` says what each copy is now, and `Grows` says in addition that
everything else in the registry is as before. The copies are related to their sources reference by
reference (`Followed`), in terms of what every later pass knows, so that nothing said of a copy is
ever lost.

The growth of two walks one after the other is the growth of both (`Grows.trans`), and a merge adds
its own copy to the growth of the walk of its fragment (`grows_closed`).
-/

namespace SchemaBundle

open Walk

/-- A fragment that was put into the registry: where it comes from, its name there, what was read,
how many levels of it could be looked into, and what became of it. -/
structure Copy where
  target : Target
  name : String
  source : Node
  room : Nat
  result : Node

/-- The copy in a report. -/
def Copy.merged (copy : Copy) : Merged :=
  ⟨copy.target.key.text, copy.name⟩

/-- The copy in the registry. -/
def Copy.entry (copy : Copy) : String × Node :=
  (copy.name, copy.result)

/-! ## What is known of references -/

/-- A later pass: it knows more, and has reported more. -/
structure Pass.Before (p q : Pass) : Prop where
  cache : p.cache.Le q.cache
  warnings : p.warnings <+: q.warnings

theorem Pass.Before.refl (p : Pass) : p.Before p :=
  ⟨.refl _, List.prefix_rfl⟩

theorem Pass.Before.trans {p q s : Pass} (hpq : p.Before q) (hqs : q.Before s) : p.Before s :=
  ⟨hpq.cache.trans hqs.cache, hpq.warnings.trans hqs.warnings⟩

/-- What is known of a reference that was followed: what it became is what later caches say, and it
leads somewhere unless that was reported. -/
structure Followed (setting : Setting) (scope : Scope) (r r' : RefNode) (p : Pass) : Prop where
  knows : r.Knows setting.layout setting.fetcher scope r' p.cache
  reaches : r.Leaves scope →
    r.Reaches scope p.cache ∨ ∃ e, Warning.unresolved r.reference e ∈ p.warnings

/-- A subtree of a document was reported as too deep. -/
def DepthReported (setting : Setting) (scope : Scope) (p : Pass) : Prop :=
  Warning.tooDeep (scope.base p.cache.root).text setting.options.maxDepth ∈ p.warnings

/-- What is known of a copy. -/
structure Copy.Faithful (setting : Setting) (copy : Copy) (p : Pass) : Prop where
  located : copy.target.IsLocated
  outside : copy.target.location ≠ p.cache.root
  read : ∃ outcome natural,
    Entries.find? copy.target.location.text p.cache.documents = some outcome ∧
      copy.target.fragmentOf setting.layout outcome = .ok (copy.source, natural)
  related : Node.RelWithin (Followed setting (.external copy.target.location) · · p)
    (DepthReported setting (.external copy.target.location) p) copy.room copy.source copy.result

section Mono

variable {setting : Setting} {scope : Scope} {p q : Pass}

theorem Followed.mono {r r' : RefNode} (h : Followed setting scope r r' p) (later : p.Before q) :
    Followed setting scope r r' q :=
  ⟨h.knows.mono later.cache, fun leaves => (h.reaches leaves).imp
    (fun reaches => reaches.mono later.cache)
    fun ⟨e, reported⟩ => ⟨e, later.warnings.subset reported⟩⟩

theorem DepthReported.mono (h : DepthReported setting scope p) (later : p.Before q) :
    DepthReported setting scope q := by
  unfold DepthReported
  rw [later.cache.root]
  exact later.warnings.subset h

theorem Copy.Faithful.mono {copy : Copy} (h : copy.Faithful setting p) (later : p.Before q) :
    copy.Faithful setting q where
  located := h.located
  outside := by rw [later.cache.root]; exact h.outside
  read := by
    obtain ⟨outcome, natural, found, read⟩ := h.read
    exact ⟨outcome, natural, later.cache.documents found, read⟩
  related := h.related.mono (fun _ _ => (·.mono later)) (·.mono later)

end Mono

/-! ## Growth -/

/-- Some copies were added, each for a fragment that had no name and under a name not in use. -/
structure Adds (copies : List Copy) (p q : Pass) : Prop where
  cache : p.cache.Le q.cache
  keys : Entries.keys q.definitions = Entries.keys p.definitions ++ copies.map Copy.name
  unknown : ∀ copy ∈ copies, p.cache.localName? copy.target.key = none
  unused : ∀ copy ∈ copies,
    copy.name ∉ Entries.keys p.definitions ∧ p.cache.isReserved copy.name = false
  named : ∀ copy ∈ copies, q.cache.localName? copy.target.key = some copy.name
  distinct : (copies.map fun copy => copy.target.key).Nodup
  distinctNames : (copies.map Copy.name).Nodup

/-- What a pass has in addition after some copies were merged. -/
structure Merges (setting : Setting) (copies : List Copy) (p q : Pass) : Prop extends
    Adds copies p q, p.Before q where
  merged : q.merged = p.merged ++ copies.map Copy.merged
  faithful : ∀ copy ∈ copies, copy.Faithful setting q
  /-- A name that was given to a fragment in between is in the registry. -/
  names : ∀ {key name}, q.cache.localName? key = some name →
    p.cache.localName? key = some name ∨ name ∈ Entries.keys q.definitions

/-- The registry has the copies at its end and is otherwise as before. -/
structure Grows (setting : Setting) (copies : List Copy) (p q : Pass) : Prop extends
    Merges setting copies p q where
  definitions : q.definitions = p.definitions ++ copies.map Copy.entry

section Merges

variable {setting : Setting} {copies more : List Copy} {p q s : Pass}

theorem adds_nil (cache : p.cache.Le q.cache)
    (keys : Entries.keys q.definitions = Entries.keys p.definitions) : Adds [] p q where
  cache := cache
  keys := by simpa using keys
  unknown := by simp
  unused := by simp
  named := by simp
  distinct := by simp
  distinctNames := by simp

/-- What was added is said of the registry and the cache alone. -/
theorem Adds.congr (h : Adds copies p q) {p' : Pass} (cache : p.cache = p'.cache)
    (definitions : p.definitions = p'.definitions) : Adds copies p' q where
  cache := cache ▸ h.cache
  keys := definitions ▸ h.keys
  unknown := cache ▸ h.unknown
  unused := cache ▸ definitions ▸ h.unused
  named := h.named
  distinct := h.distinct
  distinctNames := h.distinctNames

/-- What is added later is new also with respect to what was added before. -/
theorem Adds.trans (hpq : Adds copies p q) (hqs : Adds more q s) : Adds (copies ++ more) p s where
  cache := hpq.cache.trans hqs.cache
  keys := by rw [hqs.keys, hpq.keys, List.map_append, List.append_assoc]
  unknown := by
    intro copy member
    rcases List.mem_append.1 member with member | member
    · exact hpq.unknown copy member
    · exact hpq.cache.unnamed (hqs.unknown copy member)
  unused := by
    intro copy member
    rcases List.mem_append.1 member with member | member
    · exact hpq.unused copy member
    · obtain ⟨absent, free⟩ := hqs.unused copy member
      rw [hpq.keys, List.mem_append, not_or] at absent
      exact ⟨absent.1, hpq.cache.unreserved free⟩
  named := by
    intro copy member
    rcases List.mem_append.1 member with member | member
    · exact hqs.cache.names (hpq.named copy member)
    · exact hqs.named copy member
  distinct := by
    rw [List.map_append]
    refine hpq.distinct.append hqs.distinct fun key here there => ?_
    obtain ⟨copy, member, rfl⟩ := List.mem_map.1 here
    obtain ⟨other, member', same⟩ := List.mem_map.1 there
    have unknown := hqs.unknown other member'
    rw [same, hpq.named copy member] at unknown
    cases unknown
  distinctNames := by
    rw [List.map_append]
    refine hpq.distinctNames.append hqs.distinctNames fun name here there => ?_
    obtain ⟨other, member, rfl⟩ := List.mem_map.1 there
    refine (hqs.unused other member).1 ?_
    rw [hpq.keys, List.mem_append]
    exact .inr here

/-- Nothing was merged. -/
theorem merges_nil (later : p.Before q) (merged : q.merged = p.merged)
    (keys : Entries.keys q.definitions = Entries.keys p.definitions)
    (names : ∀ {key name}, q.cache.localName? key = some name →
      p.cache.localName? key = some name ∨ name ∈ Entries.keys q.definitions) :
    Merges setting [] p q where
  toAdds := adds_nil later.cache keys
  warnings := later.warnings
  merged := by simpa using merged
  faithful := by simp
  names := names

theorem Merges.trans (hpq : Merges setting copies p q) (hqs : Merges setting more q s) :
    Merges setting (copies ++ more) p s where
  toAdds := hpq.toAdds.trans hqs.toAdds
  warnings := hpq.warnings.trans hqs.warnings
  merged := by rw [hqs.merged, hpq.merged, List.map_append, List.append_assoc]
  faithful := by
    intro copy member
    rcases List.mem_append.1 member with member | member
    · exact (hpq.faithful copy member).mono hqs.toBefore
    · exact hqs.faithful copy member
  names := by
    intro key name named
    rcases hqs.names named with named | present
    · refine (hpq.names named).imp_right fun present => ?_
      rw [hqs.keys, List.mem_append]
      exact .inl present
    · exact .inr present

theorem Grows.trans (hpq : Grows setting copies p q) (hqs : Grows setting more q s) :
    Grows setting (copies ++ more) p s :=
  ⟨hpq.toMerges.trans hqs.toMerges, by
    rw [hqs.definitions, hpq.definitions, List.map_append, List.append_assoc]⟩

/-- Nothing was merged, and no name was given. -/
theorem grows_nil (later : p.Before q) (merged : q.merged = p.merged)
    (definitions : q.definitions = p.definitions)
    (names : ∀ {key name}, q.cache.localName? key = some name →
      p.cache.localName? key = some name ∨ name ∈ Entries.keys q.definitions) :
    Grows setting [] p q :=
  ⟨merges_nil later merged (by rw [definitions]) names, by simpa using definitions⟩

end Merges

/-! ## Marks and releases -/

namespace Pass

variable {p q : Pass} {key : TargetKey}

@[simp] theorem definitions_released : (p.released key q).definitions = q.definitions := by
  unfold released; split <;> rfl

@[simp] theorem merged_released : (p.released key q).merged = q.merged := by
  unfold released; split <;> rfl

@[simp] theorem warnings_released : (p.released key q).warnings = q.warnings := by
  unfold released; split <;> rfl

@[simp] theorem root_released : (p.released key q).cache.root = q.cache.root := by
  unfold released; split <;> rfl

@[simp] theorem documents_released : (p.released key q).cache.documents = q.cache.documents := by
  unfold released; split <;> rfl

@[simp] theorem names_released : (p.released key q).cache.names = q.cache.names := by
  unfold released; split <;> rfl

@[simp] theorem localName?_released (other : TargetKey) :
    (p.released key q).cache.localName? other = q.cache.localName? other := by
  simp [Cache.localName?]

theorem le_released (key : TargetKey) (p q : Pass) : q.cache.Le (p.released key q).cache := by
  unfold released
  split
  · exact .refl _
  · exact Cache.le_finish ..

theorem before_loaded (fetcher : Fetcher) (location : Url) (p : Pass) :
    p.Before (p.loaded fetcher location) :=
  ⟨Cache.le_load .., List.prefix_rfl⟩

theorem before_warn (warning : Warning) (p : Pass) : p.Before (p.warn warning) :=
  ⟨.refl _, List.prefix_append ..⟩

theorem before_recorded (unnamed : p.cache.localName? key = none) (name : String) :
    p.Before (p.recorded key name) :=
  ⟨Cache.le_record unnamed name, List.prefix_rfl⟩

theorem before_marked (key : TargetKey) (p : Pass) : p.Before (p.marked key) :=
  ⟨Cache.le_mark .., List.prefix_rfl⟩

/-- The pass in which a fragment is walked: it is marked, read, and has its name. -/
def opened (fetcher : Fetcher) (t : Target) (name : String) (p : Pass) : Pass :=
  ((p.marked t.key).loaded fetcher t.location).recorded t.key name

/-- The pass after a fragment was walked: it is in the registry, and its mark is gone. -/
def closed (t : Target) (name : String) (node : Node) (p q : Pass) : Pass :=
  p.released t.key ((q.reported t.location node).inserted t name node)

theorem before_opened {t : Target} (unnamed : p.cache.localName? t.key = none) (fetcher : Fetcher)
    (name : String) : p.Before (p.opened fetcher t name) := by
  refine (before_marked t.key p).trans ((before_loaded fetcher t.location _).trans
    (before_recorded ?_ name))
  simpa [loaded, marked] using unnamed

theorem before_closed (t : Target) (name : String) (node : Node) (p q : Pass) :
    q.Before (p.closed t name node q) := by
  refine ⟨le_released t.key p ((q.reported t.location node).inserted t name node), ?_⟩
  simp [closed, inserted, reported]

end Pass

/-! ## One merge -/

section Merge

variable {setting : Setting} {copies : List Copy} {p q : Pass} {t : Target} {name : String}
  {node node' : Node}

theorem names_opened {fetcher : Fetcher} {key : TargetKey} {other : String}
    (named : (p.opened fetcher t name).cache.localName? key = some other) :
    p.cache.localName? key = some other ∨ other = name := by
  rcases Cache.localName?_record_cases named with named | rfl
  · exact .inl (by simpa [Pass.loaded, Pass.marked] using named)
  · exact .inr rfl

/-- A merge adds the copies of the fragments that were met on the way, and then its own. -/
theorem adds_closed {room : Nat} (unnamed : p.cache.localName? t.key = none)
    (unused : name ∉ Entries.keys p.definitions ∧ p.cache.isReserved name = false)
    (step : Adds copies (p.opened setting.fetcher t name) q)
    (keys : Entries.keys (p.closed t name node' q).definitions
      = Entries.keys q.definitions ++ [name])
    (absent : name ∉ Entries.keys q.definitions) :
    Adds (copies ++ [⟨t, name, node, room, node'⟩]) p (p.closed t name node' q) := by
  have opened := Pass.before_opened unnamed setting.fetcher name
  have closed := Pass.before_closed t name node' p q
  have self : (p.opened setting.fetcher t name).cache.localName? t.key = some name :=
    Cache.localName?_record_self ..
  refine
    { cache := opened.cache.trans (step.cache.trans closed.cache)
      keys := ?_
      unknown := ?_
      unused := ?_
      named := ?_
      distinct := ?_
      distinctNames := ?_ }
  · rw [keys, step.keys, List.map_append, List.append_assoc]
    rfl
  · intro copy member
    rcases List.mem_append.1 member with member | member
    · exact opened.cache.unnamed (step.unknown copy member)
    · obtain rfl := List.mem_singleton.1 member
      exact unnamed
  · intro copy member
    rcases List.mem_append.1 member with member | member
    · obtain ⟨absent, free⟩ := step.unused copy member
      exact ⟨absent, opened.cache.unreserved free⟩
    · obtain rfl := List.mem_singleton.1 member
      exact unused
  · intro copy member
    rcases List.mem_append.1 member with member | member
    · exact closed.cache.names (step.named copy member)
    · obtain rfl := List.mem_singleton.1 member
      exact (step.cache.trans closed.cache).names self
  · rw [List.map_append]
    refine step.distinct.append (List.nodup_singleton _) fun key here there => ?_
    obtain ⟨copy, member, rfl⟩ := List.mem_map.1 here
    have unknown := step.unknown copy member
    rw [List.mem_singleton.1 there, self] at unknown
    cases unknown
  · rw [List.map_append]
    refine step.distinctNames.append (List.nodup_singleton _) fun other here there => ?_
    rw [List.mem_singleton.1 there] at here
    exact absent (by rw [step.keys, List.mem_append]; exact .inr here)

/-- Growth by a merge. -/
theorem grows_closed {room : Nat} (unnamed : p.cache.localName? t.key = none)
    (unused : name ∉ Entries.keys p.definitions ∧ p.cache.isReserved name = false)
    (step : Grows setting copies (p.opened setting.fetcher t name) q)
    (faithful : Copy.Faithful setting ⟨t, name, node, room, node'⟩ (p.closed t name node' q)) :
    Grows setting (copies ++ [⟨t, name, node, room, node'⟩]) p (p.closed t name node' q) := by
  have opened := Pass.before_opened unnamed setting.fetcher name
  have closed := Pass.before_closed t name node' p q
  have reserved : (p.opened setting.fetcher t name).cache.isReserved name = true :=
    (Cache.isReserved_record ..).2 (.inl rfl)
  have absent : name ∉ Entries.keys q.definitions := by
    rw [step.keys, List.mem_append, not_or]
    refine ⟨unused.1, fun member => ?_⟩
    obtain ⟨copy, member, same⟩ := List.mem_map.1 member
    have free := (step.unused copy member).2
    rw [same, reserved] at free
    cases free
  have definitions : (p.closed t name node' q).definitions = q.definitions ++ [(name, node')] := by
    simp [Pass.closed, Pass.inserted, Pass.reported, Entries.insert_of_notMem absent]
  have keys : Entries.keys (p.closed t name node' q).definitions
      = Entries.keys q.definitions ++ [name] := by
    rw [definitions]
    simp [Entries.keys]
  have merged : (p.closed t name node' q).merged = q.merged ++ [⟨t.key.text, name⟩] := by
    simp [Pass.closed, Pass.inserted, Pass.reported]
  refine
    { toAdds := adds_closed unnamed unused step.toAdds keys absent
      warnings := (opened.trans (step.toBefore.trans closed)).warnings
      merged := ?_
      faithful := ?_
      names := ?_
      definitions := ?_ }
  · rw [merged, step.merged, List.map_append, List.append_assoc]
    rfl
  · intro copy member
    rcases List.mem_append.1 member with member | member
    · exact (step.faithful copy member).mono closed
    · obtain rfl := List.mem_singleton.1 member
      exact faithful
  · intro key other named
    have named : q.cache.localName? key = some other := by
      simpa [Pass.closed, Pass.inserted, Pass.reported] using named
    rw [keys, List.mem_append, List.mem_singleton]
    rcases step.names named with named | present
    · exact (names_opened named).imp_right .inr
    · exact .inr (.inl present)
  · rw [definitions, step.definitions, List.map_append, List.append_assoc]
    rfl

end Merge

end SchemaBundle
