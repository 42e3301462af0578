import SchemaBundle.Proofs.Resolve.Ledger
import SchemaBundle.Resolve.Document

/-!
# Every walk grows the registry

The law `growth` says that a walk keeps its cache sound, makes the registry grow by copies, and
leaves behind references that were followed. Its one obligation of substance is the merge of a
fragment, whose walk has less room.

The consequences are `resolveNode_grows` and `resolveField_grows` for a schema of the root document,
and `resolveDefinitions_grows` for the registry: there the definition being walked stands apart,
with `null` in its place.
-/

namespace SchemaBundle

open Walk

/-- A scope whose document has a location. -/
def Scope.IsLocated (scope : Scope) : Prop :=
  ∀ location, scope = .external location → location.IsLocation

theorem Scope.isLocated_root : Scope.root.IsLocated := by
  rintro _ ⟨⟩

theorem Scope.isLocated_external {location : Url} (h : location.IsLocation) :
    (Scope.external location).IsLocated := by
  rintro _ ⟨⟩
  exact h

theorem Scope.IsLocated.base {scope : Scope} (h : scope.IsLocated) {root : Url}
    (hr : root.WellFormed) : (scope.base root).WellFormed := by
  cases scope with
  | root => exact hr
  | external location => exact (h location rfl).wellFormed

/-! ## What single changes of a pass leave alone -/

namespace Pass

/-- Looking up a local reference can only add a warning. -/
theorem exists_checked (layout : Layout) (reference : String) (p : Pass) :
    ∃ more, p.checked layout reference = { p with warnings := p.warnings ++ more } := by
  unfold checked
  split
  · exact ⟨[], by simp⟩
  · split
    · exact ⟨[], by simp⟩
    · exact ⟨_, rfl⟩

/-- A local reference without a definition is nothing to complain about. -/
theorem complaints_checked (layout : Layout) (reference : String) (p : Pass) :
    (p.checked layout reference).complaints = p.complaints := by
  unfold checked
  split
  · rfl
  · split
    · rfl
    · simp [complaints, warn, Warning.dangling, Warning.isComplaint]

theorem complaints_closed (t : Target) (name : String) (node : Node) (p q : Pass) :
    (p.closed t name node q).complaints = q.complaints := by
  simp [complaints, closed, inserted, reported, List.filter_map, Function.comp_def,
    Warning.unmodeled, Warning.isComplaint]

theorem asked_closed (t : Target) (name : String) (node : Node) (p q : Pass) :
    (p.closed t name node q).cache.asked = q.cache.asked := by
  unfold closed released
  split <;> rfl

theorem names_closed (t : Target) (name : String) (node : Node) (p q : Pass) :
    (p.closed t name node q).cache.names = q.cache.names := by
  simp [closed, inserted, reported]

theorem mem_asked_loaded {fetcher : Fetcher} {location other : Url} {p : Pass}
    (h : other ∈ (p.loaded fetcher location).cache.asked) :
    other ∈ p.cache.asked ∨ location = other := by
  unfold loaded Cache.load at h
  split at h
  · exact .inl h
  · exact (List.mem_append.1 h).imp_right fun h => (List.mem_singleton.1 h).symm

theorem mem_asked_opened {fetcher : Fetcher} {t : Target} {name : String} {other : Url} {p : Pass}
    (h : other ∈ (p.opened fetcher t name).cache.asked) :
    other ∈ p.cache.asked ∨ t.location = other := by
  refine (mem_asked_loaded (p := p.marked t.key) h).imp_left fun h => ?_
  unfold marked Cache.mark at h
  split at h <;> exact h

end Pass

section Merging

variable {setting : Setting} {visit : Visit} {scope : Scope} {r : RefNode} {p q : Pass}

/-- A reference that could not be merged leaves the registry alone, is complained about, and stays
out of reach. -/
theorem merging_error (fit : scope.IsLocated) (leaves : r.Leaves scope)
    (sound : p.cache.Sound setting.layout setting.fetcher) {e : ResolveError}
    (h : Merging setting visit scope r.reference p (.error e) q) :
    q.cache.Sound setting.layout setting.fetcher ∧
      Accounted setting [.reference scope r] [] p (q.warn (.unresolved r.reference e)) ∧
      r.Knows setting.layout setting.fetcher scope (r.unresolved scope) q.cache := by
  have failed (fails : r.Fails setting.layout p.cache scope e) :
      Accounted setting [.reference scope r] [] p (p.warn (.unresolved r.reference e)) :=
    accounted_of_names (Pass.before_warn ..) rfl rfl rfl
      (ledger_fails leaves (fun _ => .inl) rfl fails)
  cases h with
  | malformed located =>
    exact ⟨sound, failed (.malformed located), RefNode.knows_malformed located⟩
  | wholeRoot located inRoot whole =>
    exact ⟨sound, failed (.wholeRoot located inRoot whole),
      RefNode.knows_wholeRoot leaves located inRoot whole⟩
  | @unreadable t _ located outside unnamed unread =>
    have ht := Target.isLocated_of_locate (fit.base sound.root) located
    have later := Pass.before_loaded setting.fetcher t.location p
    have found : Entries.find? t.location.text (p.loaded setting.fetcher t.location).cache.documents
        = some (p.cache.load setting.fetcher t.location).1 := Cache.find?_load ..
    rw [← later.cache.root] at located outside
    refine ⟨sound.load ht.location, accounted_of_names (later.trans (Pass.before_warn ..)) rfl rfl
      (Cache.names_load ..) (ledger_fails leaves (fun other member => ?_) rfl
        (.unreadable located outside found unread)),
      RefNode.knows_unreadable leaves located ht outside found unread⟩
    exact (Pass.mem_asked_loaded member).imp_right fun same => ⟨leaves, t, located, same⟩

/-- What the law says of a walk with less room. -/
def VisitGrows (setting : Setting) (room : Nat) (visit : Visit) : Prop :=
  ∀ {scope node p}, Scope.IsLocated scope → p.cache.Sound setting.layout setting.fetcher →
    (visit scope node p).2.cache.Sound setting.layout setting.fetcher ∧
      (∃ copies, Accounted setting (node.stops scope room) copies p (visit scope node p).2) ∧
      Node.RelWithin (Followed setting scope · · (visit scope node p).2)
        (DepthReported setting scope (visit scope node p).2) room node (visit scope node p).1

/-- When the walk of a fragment begins, the cache is sound. -/
theorem sound_opened {t : Target} {fragment : Node × String} (isLocated : t.IsLocated)
    (sound : p.cache.Sound setting.layout setting.fetcher)
    (read : t.fragmentOf setting.layout (p.cache.load setting.fetcher t.location).1 = .ok fragment)
    (name : String) :
    (p.opened setting.fetcher t name).cache.Sound setting.layout setting.fetcher := by
  have marked : (p.marked t.key).cache.Sound setting.layout setting.fetcher :=
    sound.congr (by simp [Pass.marked]) (by simp [Pass.marked]) (by simp [Pass.marked])
  have read : t.fragmentOf setting.layout
      ((p.marked t.key).cache.load setting.fetcher t.location).1 = .ok fragment := by
    simpa [Pass.marked, Cache.load_mark] using read
  have found := Cache.find?_load setting.fetcher t.location (p.marked t.key).cache
  exact (marked.load isLocated.location).record isLocated found read name

theorem sound_closed {s : Pass} (sound : s.cache.Sound setting.layout setting.fetcher) (t : Target)
    (name : String) (node : Node) (p : Pass) :
    (p.closed t name node s).cache.Sound setting.layout setting.fetcher := by
  refine sound.congr ?_ ?_ (Pass.names_closed ..)
  · simp [Pass.closed, Pass.reported, Pass.inserted]
  · simp [Pass.closed, Pass.reported, Pass.inserted]

/-- A fragment that was walked is a faithful copy once it is in the registry. -/
theorem faithful_closed {room : Nat} {t : Target} {node node' : Node} {natural name : String}
    {s : Pass} (isLocated : t.IsLocated) (outside : t.location ≠ p.cache.root)
    (unnamed : p.cache.localName? t.key = none)
    (read : t.fragmentOf setting.layout (p.cache.load setting.fetcher t.location).1
      = .ok (node, natural))
    (step : (p.opened setting.fetcher t name).Before s)
    (related : Node.RelWithin (Followed setting (.external t.location) · · s)
      (DepthReported setting (.external t.location) s) room node node') :
    Copy.Faithful setting ⟨t, name, node, room, node'⟩ (p.closed t name node' s) := by
  have closed := Pass.before_closed t name node' p s
  have later := (Pass.before_opened unnamed setting.fetcher name).trans (step.trans closed)
  have found := Cache.find?_load setting.fetcher t.location (p.marked t.key).cache
  have read : t.fragmentOf setting.layout
      ((p.marked t.key).cache.load setting.fetcher t.location).1 = .ok (node, natural) := by
    simpa [Pass.marked, Cache.load_mark] using read
  exact ⟨isLocated, by rwa [later.cache.root],
    ⟨_, natural, (step.cache.trans closed.cache).documents found, read⟩,
    related.mono (fun _ _ => (·.mono closed)) (·.mono closed)⟩

/-- A fragment that is merged makes the registry grow by what its walk merges and by itself. The
stops of its walk are those of its copy. -/
theorem merged_grows {room : Nat} (visits : VisitGrows setting room visit) {t : Target}
    {node node' : Node} {natural name : String} {s : Pass} (fit : scope.IsLocated)
    (leaves : r.Leaves scope) (sound : p.cache.Sound setting.layout setting.fetcher)
    (located : Target.locate r.reference (scope.base p.cache.root) = .ok t)
    (outside : t.location ≠ p.cache.root) (unnamed : p.cache.localName? t.key = none)
    (read : t.fragmentOf setting.layout (p.cache.load setting.fetcher t.location).1
      = .ok (node, natural))
    (placed : p.place setting.options natural node = .fresh name)
    (visited : visit (.external t.location) node (p.opened setting.fetcher t name) = (node', s)) :
    (p.closed t name node' s).cache.Sound setting.layout setting.fetcher ∧
      (∃ copies, Accounted setting [.reference scope r] copies p (p.closed t name node' s)) ∧
      p.Before (p.closed t name node' s) ∧
      (p.closed t name node' s).cache.localName? t.key = some name := by
  have ht := Target.isLocated_of_locate (fit.base sound.root) located
  have opened := sound_opened ht sound read name
  have inside := @visits _ node _ (Scope.isLocated_external ht.location) opened
  rw [visited] at inside
  obtain ⟨soundS, ⟨copies, step⟩, related⟩ := inside
  have before := Pass.before_opened unnamed setting.fetcher name
  have closed := Pass.before_closed t name node' p s
  have later := before.trans (step.toBefore.trans closed)
  have self : (p.opened setting.fetcher t name).cache.localName? t.key = some name :=
    Cache.localName?_record_self ..
  have faithful := faithful_closed ht outside unnamed read step.toBefore related
  have grows := grows_closed unnamed (Pass.unused_of_place placed) step.toGrows faithful
  refine ⟨sound_closed soundS t name node' p, ⟨_, grows, Ledger.enclose ?_, ?_⟩, later,
    (step.cache.trans closed.cache).names self⟩
  · -- the reference, then the walk of the fragment, then nothing more
    have located : Target.locate r.reference
        (scope.base (p.opened setting.fetcher t name).cache.root) = .ok t := by
      rwa [before.cache.root]
    have first : Ledger setting [.reference scope r] [] p (p.opened setting.fetcher t name) := by
      refine ledger_reaches (fun other member => ?_) rfl ⟨t, located, .inr ⟨?_, by simp [self]⟩⟩
        fun located => Target.isLocated_of_locate (fit.base opened.root) located
      · exact (Pass.mem_asked_opened member).imp_right fun same => ⟨leaves, t, located, same⟩
      · rwa [before.cache.root]
    have last : Ledger setting [] [] s (p.closed t name node' s) :=
      ledger_nil (Pass.asked_closed ..) (Pass.complaints_closed ..)
    have all := (first.trans step.toLedger step.toBefore.cache).trans last closed.cache
    rw [List.append_nil, List.append_nil] at all
    exact all
  · intro key other named
    rw [Cache.localName?, Pass.names_closed] at named
    rcases step.reuses named with named | ⟨copy, member, same⟩ | ⟨fragment, present, reused⟩
    · by_cases same : t.key = key
      · exact .inr (.inl ⟨_, List.mem_append_right _ (List.mem_singleton_self _), same⟩)
      · rw [Pass.opened, Pass.recorded, Cache.localName?_record_of_ne same] at named
        exact .inl (by simpa [Pass.loaded, Pass.marked] using named)
    · exact .inr (.inl ⟨copy, List.mem_append_left _ member, same⟩)
    · refine .inr (.inr ⟨fragment, present, reused.mono closed.cache ⟨[(name, node')], ?_⟩⟩)
      rw [grows.definitions, step.definitions, List.map_append, List.append_assoc]
      rfl

/-- A fragment that shares a definition leaves the registry alone, and has the name of the
definition from then on. -/
theorem reused_grows {t : Target} {node : Node} {natural name : String} (fit : scope.IsLocated)
    (leaves : r.Leaves scope) (sound : p.cache.Sound setting.layout setting.fetcher)
    (located : Target.locate r.reference (scope.base p.cache.root) = .ok t)
    (outside : t.location ≠ p.cache.root) (unnamed : p.cache.localName? t.key = none)
    (read : t.fragmentOf setting.layout (p.cache.load setting.fetcher t.location).1
      = .ok (node, natural))
    (placed : p.place setting.options natural node = .existing name) :
    let q := (p.loaded setting.fetcher t.location).recorded t.key name
    q.cache.Sound setting.layout setting.fetcher ∧
      Accounted setting [.reference scope r] [] p q ∧ p.Before q ∧
      q.cache.localName? t.key = some name := by
  intro q
  have ht := Target.isLocated_of_locate (fit.base sound.root) located
  have unnamed : (p.loaded setting.fetcher t.location).cache.localName? t.key = .none := by
    simpa [Pass.loaded] using unnamed
  have later : p.Before q :=
    (Pass.before_loaded setting.fetcher t.location p).trans (Pass.before_recorded unnamed name)
  have self : q.cache.localName? t.key = some name := Cache.localName?_record_self ..
  obtain ⟨-, selfContained, present, found, same⟩ := Pass.present_of_place placed
  have member : name ∈ Entries.keys p.definitions :=
    (Entries.contains_iff ..).1 (by simp [Entries.contains, found])
  have document := Cache.find?_load setting.fetcher t.location p.cache
  have sound' : q.cache.Sound setting.layout setting.fetcher :=
    (sound.load ht.location).record ht document read name
  rw [← later.cache.root] at located outside
  refine ⟨sound', ⟨grows_nil later rfl rfl fun found => ?_, ?_, fun {key _} found => ?_⟩, later,
    self⟩
  · rcases Cache.localName?_record_cases found with found | rfl
    · exact .inl (by simpa [Pass.loaded] using found)
    · exact .inr member
  · have reaches : r.Reaches scope q.cache := ⟨t, located, .inr ⟨outside, by simp [self]⟩⟩
    refine ledger_reaches (fun other member => ?_) rfl reaches
      fun located => Target.isLocated_of_locate (fit.base sound'.root) located
    exact (Pass.mem_asked_loaded (p := p) member).imp_right
      fun same => ⟨leaves, t, located, same⟩
  · by_cases isKey : t.key = key
    · rw [← isKey, self, Option.some.injEq] at found
      subst found
      exact .inr (.inr ⟨node, present, ⟨t, _, natural, ht, isKey, document, read⟩, selfContained,
        ‹_›, same⟩)
    · simp only [q, Pass.recorded, Cache.localName?_record_of_ne isKey] at found
      exact .inl (by simpa [Pass.loaded] using found)

/-- A reference that was merged makes the registry grow, and is local from then on. -/
theorem merging_ok {room : Nat} (visits : VisitGrows setting room visit) (fit : scope.IsLocated)
    (leaves : r.Leaves scope) (sound : p.cache.Sound setting.layout setting.fetcher)
    {reference : String} (h : Merging setting visit scope r.reference p (.ok reference) q) :
    q.cache.Sound setting.layout setting.fetcher ∧
      (∃ copies, Accounted setting [.reference scope r] copies p q) ∧
      r.Knows setting.layout setting.fetcher scope (r.localized reference) q.cache ∧
      r.Reaches scope q.cache := by
  have here (reaches : r.Reaches scope p.cache) : Accounted setting [.reference scope r] [] p p :=
    accounted_of_names (.refl p) rfl rfl rfl (ledger_reaches (fun _ => .inl) rfl reaches
      fun located => Target.isLocated_of_locate (fit.base sound.root) located)
  have named {t : Target} {name : String} (later : p.Before q)
      (located : Target.locate r.reference (scope.base p.cache.root) = .ok t)
      (outside : t.location ≠ p.cache.root) (named : q.cache.localName? t.key = some name) :
      r.Knows setting.layout setting.fetcher scope
        (r.localized (setting.layout.localRef name)) q.cache ∧ r.Reaches scope q.cache := by
    rw [← later.cache.root] at located outside
    exact ⟨RefNode.knows_named leaves located outside named,
      t, located, .inr ⟨outside, by simp [named]⟩⟩
  cases h with
  | @backToRoot t g located inRoot pointer =>
    have reaches : r.Reaches scope p.cache := ⟨t, located, .inl ⟨inRoot, by simp [pointer]⟩⟩
    exact ⟨sound, ⟨[], here reaches⟩, RefNode.knows_backToRoot leaves located inRoot pointer,
      reaches⟩
  | @known t name located outside known =>
    have answer := named (.refl p) located outside known
    exact ⟨sound, ⟨[], here answer.2⟩, answer⟩
  | @reused t node natural name located outside unnamed read placed =>
    obtain ⟨sound, step, later, self⟩ :=
      reused_grows fit leaves sound located outside unnamed read placed
    exact ⟨sound, ⟨[], step⟩, named later located outside self⟩
  | @merged t node node' natural name s located outside unnamed read placed visited =>
    obtain ⟨sound, step, later, self⟩ :=
      merged_grows visits fit leaves sound located outside unnamed read placed visited
    exact ⟨sound, step, named later located outside self⟩

end Merging

/-- **Walks grow the registry**, and their stops account for all they do. -/
def growth (setting : Setting) : WalkLaw setting where
  Inv p := p.cache.Sound setting.layout setting.fetcher
  Step stops p q := ∃ copies, Accounted setting stops copies p q
  Fit := Scope.IsLocated
  Done := Followed setting
  Cut := DepthReported setting
  step_nil p := ⟨[], accounted_refl p⟩
  step_append := by
    rintro xs ys p q s ⟨copies, hpq⟩ ⟨more, hqs⟩
    exact ⟨copies ++ more, hpq.trans hqs⟩
  done_mono := by
    rintro xs scope r r' p q ⟨copies, step⟩ h
    exact h.mono step.toBefore
  cut_mono := by
    rintro xs scope p q ⟨copies, step⟩ h
    exact h.mono step.toBefore
  tooDeep := by
    intro scope p _ sound
    refine ⟨sound, ⟨[], accounted_of_names (Pass.before_warn ..) rfl rfl rfl
      (ledger_tooDeep setting scope p)⟩, ?_⟩
    exact List.mem_append_right _ (List.mem_singleton_self _)
  follows := by
    intro room visit scope r r' p q visits fit sound h
    cases h with
    | kept stays =>
      have complaints := Pass.complaints_checked setting.layout r.reference p
      obtain ⟨more, same⟩ := Pass.exists_checked setting.layout r.reference p
      rw [same] at complaints ⊢
      have later : p.Before { p with warnings := p.warnings ++ more } :=
        ⟨.refl _, List.prefix_append ..⟩
      have ledger : Ledger setting [.reference scope r] [] p
          { p with warnings := p.warnings ++ more } :=
        ledger_reference (fun _ => .inl) (fun leaves => absurd leaves stays) fun d _ _ => by
          rw [RefNode.fault?_of_stays stays, complaints]
          simp
      exact ⟨sound, ⟨[], accounted_of_names later rfl rfl rfl ledger⟩, RefNode.knows_kept stays,
        fun leaves => absurd leaves stays⟩
    | resolved leaves merging =>
      obtain ⟨sound, step, knows, reaches⟩ := merging_ok visits fit leaves sound merging
      exact ⟨sound, step, knows, fun _ => .inl reaches⟩
    | @failed e s leaves merging =>
      obtain ⟨sound, step, knows⟩ := merging_error fit leaves sound merging
      refine ⟨sound, ⟨[], step⟩, knows, fun _ => .inr ⟨e, ?_⟩⟩
      exact List.mem_append_right _ (List.mem_singleton_self _)

/-! ## Schemas outside the registry -/

section Schemas

variable (setting : Setting) {p : Pass}

theorem resolveNode_grows (node : Node) (sound : p.cache.Sound setting.layout setting.fetcher) :
    let (node', q) := resolveNode setting node p
    q.cache.Sound setting.layout setting.fetcher ∧
      (∃ copies, Accounted setting (node.stops .root (fullRoom setting)) copies p q) ∧
      Node.RelWithin (Followed setting .root · · q) (DepthReported setting .root q)
        (fullRoom setting) node node' :=
  (growth setting).walkNode (fullRoom setting) .root node Scope.isLocated_root p sound

theorem resolveField_grows (field : Field)
    (sound : p.cache.Sound setting.layout setting.fetcher) :
    let (field', q) := resolveField setting field p
    q.cache.Sound setting.layout setting.fetcher ∧
      (∃ copies, Accounted setting (field.stops .root (fullRoom setting)) copies p q) ∧
      Field.RelWithin (Followed setting .root · · q) (DepthReported setting .root q)
        (fullRoom setting) field field' :=
  (growth setting).walkField (fullRoom setting) Scope.isLocated_root field p sound

end Schemas

/-! ## The registry -/

/-- A definition of the root document and what became of it. -/
def Redefined (setting : Setting) (q : Pass) (entry entry' : String × Node) : Prop :=
  entry'.1 = entry.1 ∧
    Node.RelWithin (Followed setting .root · · q) (DepthReported setting .root q)
      (fullRoom setting) entry.2 entry'.2

theorem Redefined.mono {setting : Setting} {p q : Pass} (later : p.Before q)
    (entry entry' : String × Node) (h : Redefined setting p entry entry') :
    Redefined setting q entry entry' :=
  ⟨h.1, h.2.mono (fun _ _ => (·.mono later)) (·.mono later)⟩

section Registry

variable {setting : Setting} {copies : List Copy} {p q : Pass}

/-- Growth is about the names in the registry, not about what they stand for. -/
theorem Merges.redefine (h : Merges setting copies p q) {before after : Definitions}
    (hp : Entries.keys before = Entries.keys p.definitions)
    (hq : Entries.keys after = Entries.keys q.definitions) :
    Merges setting copies { p with definitions := before } { q with definitions := after } where
  cache := h.cache
  warnings := h.warnings
  merged := h.merged
  keys := by rw [hp, hq]; exact h.keys
  unknown := h.unknown
  unused := by rw [hp]; exact h.unused
  named := h.named
  faithful copy member := (h.faithful copy member).mono ⟨.refl _, List.prefix_rfl⟩
  distinct := h.distinct
  distinctNames := h.distinctNames
  names := by rw [hq]; exact h.names

/-- The pass with another definition at a position. -/
def Pass.put (position : Nat) (entry : String × Node) (pass : Pass) : Pass :=
  { pass with definitions := pass.definitions.set position entry }

theorem resolveAt_run {position : Nat} {name : String} {node : Node}
    (here : p.definitions[position]? = some (name, node)) :
    resolveAt setting position p =
      let (node', q) := resolveNode setting node (p.put position (name, .plain .null))
      ((), q.put position (name, node')) := by
  rw [resolveAt, run_bind, run_get]
  simp only [here]
  rfl

/-- What is accounted for does not hang on what the names of the registry stand for. -/
theorem Ledger.redefine {stops : List Stop} (h : Ledger setting stops copies p q)
    (before after : Definitions) :
    Ledger setting stops copies { p with definitions := before }
      { q with definitions := after } :=
  ⟨h.asked, h.decided, h.complaints⟩

/-- One definition: while it is walked `null` stands in its place, also for what is reused. -/
theorem resolveAt_grows {position : Nat} {name : String} {node : Node}
    (here : p.definitions[position]? = some (name, node))
    (sound : p.cache.Sound setting.layout setting.fetcher) :
    let q := (resolveAt setting position p).2
    q.cache.Sound setting.layout setting.fetcher ∧ ∃ copies node', Merges setting copies p q ∧
      Ledger setting (node.stops .root (fullRoom setting)) copies p q ∧
      q.definitions = p.definitions.set position (name, node') ++ copies.map Copy.entry ∧
      Redefined setting q (name, node) (name, node') ∧
      ∀ {key other}, q.cache.localName? key = some other →
        p.cache.localName? key = some other ∨ (∃ copy ∈ copies, copy.target.key = key) ∨
          ∃ fragment present, Reused setting.layout key other fragment present
            (q.put position (name, .plain .null)) := by
  have bound : position < p.definitions.length := (List.getElem?_eq_some_iff.1 here).1
  have walked := resolveNode_grows setting node (p := p.put position (name, .plain .null)) sound
  rw [resolveAt_run here]
  generalize resolveNode setting node (p.put position (name, .plain .null)) = answer at walked
  obtain ⟨node', q⟩ := answer
  obtain ⟨sound, ⟨copies, step⟩, related⟩ := walked
  have keys : Entries.keys (p.definitions.set position (name, .plain .null))
      = Entries.keys p.definitions := Entries.keys_set here _
  have definitions : (q.put position (name, node')).definitions
      = p.definitions.set position (name, node') ++ copies.map Copy.entry := by
    simp only [Pass.put, step.definitions]
    rw [List.set_append_left _ _ (by simpa using bound), List.set_set]
  have present : q.definitions[position]? = some (name, .plain .null) := by
    rw [step.definitions, List.getElem?_append_left (by simpa [Pass.put] using bound)]
    exact List.getElem?_set_self bound
  have merges : Merges setting copies p (q.put position (name, node')) :=
    step.toMerges.redefine keys.symm (Entries.keys_set present _)
  have same : q.Before (q.put position (name, node')) := ⟨.refl _, List.prefix_rfl⟩
  refine ⟨sound, copies, node', merges, step.toLedger.redefine _ _, definitions,
    ⟨rfl, related.mono (fun _ _ => (·.mono same)) (·.mono same)⟩, fun named => ?_⟩
  have during : (q.put position (name, node')).put position (name, .plain .null) = q := by
    obtain ⟨inside, same⟩ := List.getElem?_eq_some_iff.1 present
    simp only [Pass.put, List.set_set]
    rw [← same, List.set_getElem_self inside]
  rw [during]
  exact step.reuses named

theorem forM_concat_run {α : Type} (f : α → PassM Unit) (xs : List α) (a : α) (p : Pass) :
    (xs ++ [a]).forM f p = f a (xs.forM f p).2 := by
  induction xs generalizing p with
  | nil => rfl
  | cons x rest ih => exact ih (f x p).2

/-- The stops of the walks of definitions of the root document. -/
def definitionStops (setting : Setting) (definitions : Definitions) : List Stop :=
  definitions.flatMap fun entry => entry.2.stops .root (fullRoom setting)

/-- What the first positions were made into. -/
theorem resolveRange_grows (sound : p.cache.Sound setting.layout setting.fetcher) (n : Nat)
    (bound : n ≤ p.definitions.length) :
    let q := ((List.range n).forM (resolveAt setting) p).2
    q.cache.Sound setting.layout setting.fetcher ∧ ∃ copies done, Merges setting copies p q ∧
      Ledger setting (definitionStops setting (p.definitions.take n)) copies p q ∧
      q.definitions = done ++ p.definitions.drop n ++ copies.map Copy.entry ∧
      List.Forall₂ (Redefined setting q) (p.definitions.take n) done := by
  induction n with
  | zero =>
    exact ⟨sound, [], [], merges_nil (.refl p) rfl rfl .inl, ledger_nil rfl rfl,
      by simp [run_pure], by simp⟩
  | succ n ih =>
    obtain ⟨sound, copies, done, step, ledger, definitions, related⟩ := ih (by omega)
    rw [List.range_succ, forM_concat_run]
    generalize ((List.range n).forM (resolveAt setting) p).2 = q at *
    have length : done.length = n := by
      rw [← related.length_eq, List.length_take]
      omega
    obtain ⟨⟨name, node⟩, rest, split⟩ : ∃ entry rest, p.definitions.drop n = entry :: rest :=
      List.exists_cons_of_ne_nil (by rw [ne_eq, List.drop_eq_nil_iff]; omega)
    have here : q.definitions[n]? = some (name, node) := by
      rw [definitions, split, List.append_assoc, List.getElem?_append_right (by omega)]
      simp [length]
    obtain ⟨sound, more, node', again, ledger', definitions', related', -⟩ :=
      resolveAt_grows here sound
    have later : p.definitions.drop (n + 1) = rest := by
      rw [← List.drop_drop, split, List.drop_one, List.tail_cons]
    have earlier : p.definitions.take (n + 1) = p.definitions.take n ++ [(name, node)] := by
      rw [List.take_add, split, List.take_one, List.head?_cons]
      rfl
    refine ⟨sound, copies ++ more, done ++ [(name, node')], step.trans again, ?_, ?_, ?_⟩
    · rw [earlier, definitionStops, List.flatMap_append, List.flatMap_singleton]
      exact ledger.trans ledger' again.toBefore.cache
    · rw [definitions', definitions, split, later, List.append_assoc,
        List.set_append_right _ _ (by omega)]
      simp [length]
    · rw [earlier]
      exact List.rel_append (related.imp (Redefined.mono again.toBefore)) (.cons related' .nil)

/-- The whole registry. -/
theorem resolveDefinitions_grows (sound : p.cache.Sound setting.layout setting.fetcher) :
    let q := (resolveDefinitions setting p).2
    q.cache.Sound setting.layout setting.fetcher ∧ ∃ copies done, Merges setting copies p q ∧
      Ledger setting (definitionStops setting p.definitions) copies p q ∧
      q.definitions = done ++ copies.map Copy.entry ∧
      List.Forall₂ (Redefined setting q) p.definitions done := by
  obtain ⟨sound, copies, done, step, ledger, definitions, related⟩ :=
    resolveRange_grows sound p.definitions.length (Nat.le_refl _)
  rw [List.drop_length, List.append_nil] at definitions
  rw [List.take_length] at ledger related
  exact ⟨sound, copies, done, step, ledger, definitions, related⟩

end Registry

/-! ## Documents -/

/-- Where no fragment had a name before, every name that was given is in the registry. -/
theorem Merges.mem_keys {setting : Setting} {copies : List Copy} {definitions : Definitions}
    {root : Url} {q : Pass}
    (h : Merges setting copies (Pass.start definitions (Cache.empty root)) q) {key : TargetKey}
    {name : String} (named : q.cache.localName? key = some name) :
    name ∈ Entries.keys q.definitions :=
  (h.names named).resolve_left (by simp [Pass.start, Cache.empty, Cache.localName?])

namespace Document

variable (fetcher : Fetcher) (options : Options) (document : Document)

/-- What stays the same during a pass over a document. -/
def setting : Setting :=
  ⟨document.layout, fetcher, options⟩

/-- The pass over a document at a location after its first `n` definitions were resolved. -/
def passAfter (root : Url) (n : Nat) : Pass :=
  ((List.range n).forM (resolveAt (document.setting fetcher options))
    (Pass.start document.definitions (Cache.empty root))).2

/-- The pass at its end. -/
def lastPass (root : Url) : Pass :=
  document.passAfter fetcher options root document.definitions.length

/-- What a pass over a document has done: the definitions that were there are made into `done`, the
copies follow them, and the stops account for everything. -/
structure Bundled (root : Url) (q : Pass) (copies : List Copy) (done : Definitions) : Prop where
  sound : q.cache.Sound document.layout fetcher
  merges : Merges (document.setting fetcher options) copies
    (Pass.start document.definitions (Cache.empty root)) q
  ledger : Ledger (document.setting fetcher options)
    (definitionStops (document.setting fetcher options) document.definitions) copies
    (Pass.start document.definitions (Cache.empty root)) q
  definitions : q.definitions = done ++ copies.map Copy.entry
  related : List.Forall₂ (Redefined (document.setting fetcher options) q) document.definitions done

/-- What a pass leaves is read off its end. -/
theorem resolve_of_rootUrl {root : Url} (h : options.rootUrl = .ok root) :
    document.resolve fetcher options = .ok
      ⟨{ document with definitions := (document.lastPass fetcher options root).definitions },
        ⟨(document.lastPass fetcher options root).warnings,
          (document.lastPass fetcher options root).merged,
          (document.lastPass fetcher options root).cache.fetches⟩,
        (document.lastPass fetcher options root).cache⟩ := by
  rw [resolve, h]
  rfl

theorem exists_rootUrl_of_resolve {result : Resolved}
    (resolved : document.resolve fetcher options = .ok result) :
    ∃ root, options.rootUrl = .ok root := by
  cases known : options.rootUrl with
  | error e => simp [resolve, known, bind, Except.bind] at resolved
  | ok root => exact ⟨root, rfl⟩

theorem lastPass_bundled {root : Url} (h : root.IsLocation) :
    ∃ copies done, document.Bundled fetcher options root (document.lastPass fetcher options root)
      copies done := by
  obtain ⟨sound, copies, done, step, ledger, definitions, related⟩ :=
    @resolveDefinitions_grows (document.setting fetcher options)
      (Pass.start document.definitions (Cache.empty root))
      (Cache.sound_empty h.wellFormed document.layout fetcher)
  exact ⟨copies, done, sound, step, ledger, definitions, related⟩

end Document

/-- A pass over a document whose location is known: the definitions that were there are made into
`done`, and the copies follow them. -/
theorem Document.resolve_grows (fetcher : Fetcher) (options : Options) (document : Document)
    {root : Url} (h : options.rootUrl = .ok root) :
    ∃ (q : Pass) (copies : List Copy) (done : Definitions),
      document.resolve fetcher options = .ok
        ⟨{ document with definitions := done ++ copies.map Copy.entry },
          ⟨q.warnings, copies.map Copy.merged, q.cache.fetches⟩, q.cache⟩ ∧
      q.cache.Sound document.layout fetcher ∧
      Merges ⟨document.layout, fetcher, options⟩ copies
        (Pass.start document.definitions (Cache.empty root)) q ∧
      q.definitions = done ++ copies.map Copy.entry ∧
      List.Forall₂ (Redefined ⟨document.layout, fetcher, options⟩ q) document.definitions done := by
  obtain ⟨copies, done, bundled⟩ :=
    document.lastPass_bundled fetcher options (Options.isLocation_of_rootUrl h)
  refine ⟨_, copies, done, ?_, bundled.sound, bundled.merges, bundled.definitions, bundled.related⟩
  have merged := bundled.merges.merged
  rw [Pass.start, List.nil_append] at merged
  rw [← bundled.definitions, ← merged, resolve_of_rootUrl fetcher options document h]

/-- What a pass that came to an end has done. -/
theorem Document.resolve_cases {fetcher : Fetcher} {options : Options} {document : Document}
    {result : Resolved} (resolved : document.resolve fetcher options = .ok result) :
    ∃ (root : Url) (q : Pass) (copies : List Copy) (done : Definitions),
      options.rootUrl = .ok root ∧
      result = ⟨{ document with definitions := done ++ copies.map Copy.entry },
        ⟨q.warnings, copies.map Copy.merged, q.cache.fetches⟩, q.cache⟩ ∧
      q.cache.Sound document.layout fetcher ∧
      Merges ⟨document.layout, fetcher, options⟩ copies
        (Pass.start document.definitions (Cache.empty root)) q ∧
      q.definitions = done ++ copies.map Copy.entry ∧
      List.Forall₂ (Redefined ⟨document.layout, fetcher, options⟩ q) document.definitions done := by
  obtain ⟨root, known⟩ := exists_rootUrl_of_resolve fetcher options document resolved
  obtain ⟨q, copies, done, same, grown⟩ := document.resolve_grows fetcher options known
  rw [same] at resolved
  exact ⟨root, q, copies, done, known, (Except.ok.inj resolved).symm, grown⟩

end SchemaBundle
