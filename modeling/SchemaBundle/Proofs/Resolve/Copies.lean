import SchemaBundle.Proofs.Resolve.History

/-!
# The copies of a run

The fragments that a run merges are in its history, each with the depth at which its merge began. It
is by these copies that the registry grows (`Runs.grows` and `Document.Run.merges`). So what is
known of the copies of a pass is known of those in its history, and the room of a copy is what the
limit leaves below the reference that it was merged for (`Sweeps.beginsIn`).
-/

namespace SchemaBundle

open Walk

section Runs

variable {setting : Setting} {depth : Nat} {scope : Scope} {p q : Pass} {events : List Event}

/-- Nothing is merged where nothing is visited. -/
theorem Walk.Quiet.grows {r r' : RefNode} (h : Quiet setting scope r p r' q)
    (fit : scope.IsLocated) (sound : p.cache.Sound setting.layout setting.fetcher) :
    q.cache.Sound setting.layout setting.fetcher ∧ Grows setting [] p q := by
  have visits : (growth setting).Visits 0 (tooDeep setting) := (growth setting).visits_tooDeep
  obtain ⟨sound, ⟨copies, step⟩, -⟩ := (growth setting).follows
    (fun fit inv => visits _ _ fit _ inv) fit sound (h.follows (tooDeep setting))
  have none : copies = [] := by
    have merged := step.merged
    rw [h.keeps.2.2.1] at merged
    simpa using merged
  rw [none] at step
  exact ⟨sound, step.toGrows⟩

/-- **A run makes the registry grow by the copies in its history.** -/
theorem Runs.grows {xs xs' : List Part} (h : Runs setting depth scope xs p xs' q events)
    (fit : scope.IsLocated) (sound : p.cache.Sound setting.layout setting.fetcher) :
    q.cache.Sound setting.layout setting.fetcher ∧
      Grows setting (events.filterMap Event.copy?) p q := by
  induction h with
  | nil => exact ⟨sound, (accounted_refl _).toGrows⟩
  | cons _ _ first rest =>
    obtain ⟨sound, step⟩ := first fit sound
    obtain ⟨sound, again⟩ := rest fit sound
    rw [List.filterMap_append]
    exact ⟨sound, step.trans again⟩
  | looked _ _ _ ih => exact ih fit sound
  | refused _ => exact ⟨sound, grows_nil (Pass.before_warn ..) rfl rfl .inl⟩
  | followed quiet => exact quiet.grows fit sound
  | @opened depth scope r t node node' name p q events opens inside ih =>
    obtain ⟨-, located, outside, unnamed, natural, read, placed⟩ := opens
    have isLocated := Target.isLocated_of_locate (fit.base sound.root) located
    have fit := Scope.isLocated_external isLocated.location
    have opened := sound_opened isLocated sound read name
    obtain ⟨soundQ, step⟩ := ih fit opened
    have visited := walkPart_node.1 (mapM_singleton_run.1 inside.walk)
    have below : setting.options.maxDepth + 1 - (depth + 1) = setting.options.maxDepth - depth := by
      omega
    obtain ⟨-, -, related⟩ := (growth setting).walkNode _ _ node fit _ opened
    rw [visited, below] at related
    have faithful := faithful_closed isLocated outside unnamed read step.toBefore related
    have grows := grows_closed unnamed (Pass.unused_of_place placed) step faithful
    refine ⟨sound_closed soundQ .., ?_⟩
    simpa only [List.filterMap_cons, List.filterMap_append, Event.copy?, List.filterMap_nil]
      using grows

/-- The definitions that were there are followed by the copies. -/
theorem Sweeps.merges {n : Nat} (h : Sweeps setting p n q events) (bound : n ≤ p.definitions.length)
    (sound : p.cache.Sound setting.layout setting.fetcher) :
    q.cache.Sound setting.layout setting.fetcher ∧
      Merges setting (events.filterMap Event.copy?) p q ∧
      ∃ done, done.length = p.definitions.length ∧
        q.definitions = done ++ (events.filterMap Event.copy?).map Copy.entry := by
  induction h with
  | zero =>
    exact ⟨sound, merges_nil (.refl p) rfl rfl .inl, p.definitions, rfl, (List.append_nil _).symm⟩
  | @succ n q s events more name node node' before here inside ih =>
    obtain ⟨soundQ, merges, done, length, definitions⟩ := ih (by omega)
    obtain ⟨soundS, step⟩ := inside.grows Scope.isLocated_root soundQ
    have inDone : n < done.length := by omega
    have out : (q.put n (name, .plain .null)).definitions
        = done.set n (name, .plain .null) ++ (events.filterMap Event.copy?).map Copy.entry := by
      rw [Pass.put, definitions, List.set_append_left _ _ inDone]
    have walked : s.definitions = done.set n (name, .plain .null)
        ++ (events.filterMap Event.copy? ++ more.filterMap Event.copy?).map Copy.entry := by
      rw [step.definitions, out, List.map_append, List.append_assoc]
    have there : s.definitions[n]? = some (name, .plain .null) := by
      rw [walked, List.getElem?_append_left (by simpa using inDone)]
      exact List.getElem?_set_self inDone
    have again : Merges setting (more.filterMap Event.copy?) q (s.put n (name, node')) :=
      step.toMerges.redefine (Entries.keys_set here _).symm (Entries.keys_set there _)
    simp only [List.filterMap_append, List.filterMap_cons, Event.copy?, List.filterMap_nil,
      List.append_nil]
    refine ⟨soundS, merges.trans again, done.set n (name, node'), by simpa using length, ?_⟩
    rw [Pass.put, walked, List.set_append_left _ _ (by simpa using inDone), List.set_set]

end Runs

/-! ## Where a merge begins -/

/-- In a history the merge of a copy begins, at the depth that leaves it its room. -/
def Copy.BeginsIn (limit : Nat) (events : List Event) (copy : Copy) : Prop :=
  ∃ earlier depth scope r later,
    events = earlier ++ .opened depth scope r copy.target copy.name :: later ∧
      copy.room = limit - depth

section Begins

variable {setting : Setting} {depth limit n : Nat} {scope : Scope} {p q s : Pass}
  {events more : List Event} {copy : Copy}

theorem Copy.BeginsIn.append_left (h : copy.BeginsIn limit events) (more : List Event) :
    copy.BeginsIn limit (more ++ events) := by
  obtain ⟨earlier, depth, scope, r, later, rfl, room⟩ := h
  exact ⟨more ++ earlier, depth, scope, r, later, by rw [List.append_assoc], room⟩

theorem Copy.BeginsIn.append_right (h : copy.BeginsIn limit events) (more : List Event) :
    copy.BeginsIn limit (events ++ more) := by
  obtain ⟨earlier, depth, scope, r, later, rfl, room⟩ := h
  exact ⟨earlier, depth, scope, r, later ++ more, by rw [List.append_assoc, List.cons_append], room⟩

theorem Runs.beginsIn {xs xs' : List Part} (h : Runs setting depth scope xs p xs' q events) :
    ∀ copy ∈ events.filterMap Event.copy?, copy.BeginsIn setting.options.maxDepth events := by
  induction h with
  | nil | refused | followed => exact fun copy member => absurd member List.not_mem_nil
  | @cons depth scope x x' xs xs' p q s events more _ _ first rest =>
    intro copy member
    rw [List.filterMap_append, List.mem_append] at member
    rcases member with member | member
    · exact (first copy member).append_right more
    · exact (rest copy member).append_left events
  | @looked depth scope a a' p q events _ _ _ ih =>
    exact fun copy member => (ih copy member).append_left [.looked depth]
  | @opened depth scope r t node node' name p q events _ _ ih =>
    intro copy member
    simp only [List.filterMap_cons, List.filterMap_append, Event.copy?, List.filterMap_nil,
      List.mem_append, List.mem_singleton] at member
    rcases member with member | rfl
    · exact ((ih copy member).append_right _).append_left [.opened depth scope r t name]
    · exact ⟨[], depth, scope, r, _, rfl, rfl⟩

theorem Sweeps.beginsIn (h : Sweeps setting p n q events) :
    ∀ copy ∈ events.filterMap Event.copy?, copy.BeginsIn setting.options.maxDepth events := by
  induction h with
  | zero => exact fun copy member => absurd member List.not_mem_nil
  | @succ n q s events more name node node' before here inside ih =>
    intro copy member
    simp only [List.filterMap_append, List.filterMap_cons, Event.copy?, List.filterMap_nil,
      List.append_nil, List.mem_append] at member
    rcases member with member | member
    · exact (ih copy member).append_right _
    · exact (((inside.beginsIn copy member).append_right _).append_left
        [.put n (name, .plain .null)]).append_left events

theorem Sweeps.fragments (h : Sweeps setting p n q events) :
    (events.filterMap Event.fragment?).Perm
      ((events.filterMap Event.copy?).map fun copy => (copy.target, copy.name)) := by
  induction h with
  | zero => exact .refl _
  | succ before here inside ih =>
    simp only [List.filterMap_append, List.filterMap_cons, Event.copy?, Event.fragment?,
      List.filterMap_nil, List.append_nil, List.map_append]
    exact ih.append inside.fragments

end Begins

/-! ## Documents -/

/-- A merge begins with the first reference to its fragment: no reference that was followed before
is located at it. -/
theorem Trace.first {setting : Setting} {p q : Pass} {earlier later : List Event} {depth : Nat}
    {scope : Scope} {r : RefNode} {t : Target} {name : String}
    (h : Trace setting (earlier ++ .opened depth scope r t name :: later) p q) {other : Scope}
    {s : RefNode} (met : .reference other s ∈ earlier.filterMap Event.stop?)
    (leaves : s.Leaves other) : Target.locate s.reference (other.base p.cache.root) ≠ .ok t := by
  obtain ⟨middle, after, trace, here, -⟩ := h.leads
  cases here with
  | @opened _ _ _ _ node _ _ opens =>
    intro located
    rw [← trace.before.cache.root] at located
    rcases trace.decided met leaves with ⟨u, located', there⟩ | ⟨e, fault⟩
    · obtain rfl := Except.ok.inj (located.symm.trans located')
      rcases there with inRoot | ⟨-, named⟩
      · exact opens.outside inRoot.1
      · rw [opens.unnamed] at named
        cases named
    · obtain ⟨natural, read, -⟩ := opens.read
      cases (RefNode.fails_of_fault? fault).2 with
      | malformed located' => cases located.symm.trans located'
      | wholeRoot located' inRoot =>
        obtain rfl := Except.ok.inj (located.symm.trans located')
        exact opens.outside inRoot
      | @unreadable u outcome _ located' outside found failed =>
        obtain rfl := Except.ok.inj (located.symm.trans located')
        have loaded : (middle.cache.load setting.fetcher t.location).1 = outcome := by
          simp [Cache.load, found]
        rw [loaded, failed] at read
        cases read

namespace Document.Run

variable {fetcher : Fetcher} {options : Options} {document : Document} {root : Url} {q : Pass}
  {events : List Event}

theorem trace (h : document.Run fetcher options root events q) :
    Trace (document.setting fetcher options) events
      (Pass.start document.definitions (Cache.empty root)) q :=
  Sweeps.trace h

theorem merges (h : document.Run fetcher options root events q) (isLocation : root.IsLocation) :
    q.cache.Sound document.layout fetcher ∧
      Merges (document.setting fetcher options) (events.filterMap Event.copy?)
        (Pass.start document.definitions (Cache.empty root)) q ∧
      ∃ done, Entries.keys done = Entries.keys document.definitions ∧
        q.definitions = done ++ (events.filterMap Event.copy?).map Copy.entry := by
  obtain ⟨sound, merges, done, -, definitions⟩ := Sweeps.merges h (Nat.le_refl _)
    (Cache.sound_empty isLocation.wellFormed document.layout fetcher)
  refine ⟨sound, merges, done, ?_, definitions⟩
  have keys := merges.keys
  rw [definitions, Entries.keys, List.map_append, List.map_map] at keys
  exact List.append_cancel_right keys

/-- The names of the bundle are those of the document, and those for which a merge began. -/
theorem mem_keys_iff (h : document.Run fetcher options root events q)
    (isLocation : root.IsLocation) (name : String) :
    name ∈ Entries.keys q.definitions ↔
      name ∈ Entries.keys document.definitions ∨ name ∈ events.filterMap Event.name? := by
  have names : (events.filterMap Event.name?).Perm
      ((events.filterMap Event.copy?).map Copy.name) := by
    have fragments := (Sweeps.fragments h).map (·.2)
    rwa [List.map_map, List.map_filterMap] at fragments
  rw [(h.merges isLocation).2.1.keys, List.mem_append, names.mem_iff]
  rfl

theorem stops (h : document.Run fetcher options root events q) (isLocation : root.IsLocation) :
    definitionStops (document.setting fetcher options) document.definitions
      ⊆ events.filterMap Event.stop? := by
  have upTo {n : Nat} {q : Pass} {events : List Event}
      (h : Sweeps (document.setting fetcher options)
        (Pass.start document.definitions (Cache.empty root)) n q events)
      (bound : n ≤ document.definitions.length) :
      definitionStops (document.setting fetcher options) (document.definitions.take n)
        ⊆ events.filterMap Event.stop? := by
    induction h with
    | zero => exact List.nil_subset _
    | @succ n q s events more name node node' before here inside ih =>
      -- what was taken out is what the document has at this position
      have entry : document.definitions[n]? = some (name, node) := by
        obtain ⟨-, ready⟩ :=
          @passAfter_ready fetcher options document root n isLocation (Nat.le_of_lt bound)
        rw [List.getElem?_eq_getElem bound, ← ready (List.getElem?_eq_getElem bound), ← here,
          ← before.resolves]
        rfl
      have walked : node.stops .root (fullRoom (document.setting fetcher options))
          ⊆ more.filterMap Event.stop? := by
        have inside := inside.stops
        rwa [List.flatMap_singleton] at inside
      have stops : definitionStops (document.setting fetcher options)
          (document.definitions.take (n + 1))
          = definitionStops (document.setting fetcher options) (document.definitions.take n)
            ++ node.stops .root (fullRoom (document.setting fetcher options)) := by
        rw [List.take_add_one, entry]
        simp [definitionStops]
      rw [stops, List.filterMap_append, List.filterMap_cons, List.filterMap_append]
      exact List.append_subset.2
        ⟨List.subset_append_of_subset_left _ (ih (Nat.le_of_lt bound)),
          List.subset_append_of_subset_right _ (List.subset_append_of_subset_left _ walked)⟩
  have all := upTo h (Nat.le_refl _)
  rwa [List.take_length] at all

end Document.Run

/-- What is reported is what a run leads to. -/
theorem Document.exists_run_of_resolve {fetcher : Fetcher} {options : Options}
    {document : Document} {result : Resolved}
    (resolved : document.resolve fetcher options = .ok result) :
    ∃ root events q, options.rootUrl = .ok root ∧ root.IsLocation ∧
      document.Run fetcher options root events q ∧
      result = ⟨{ document with definitions := q.definitions },
        ⟨q.warnings, q.merged, q.cache.fetches⟩, q.cache⟩ := by
  obtain ⟨root, known⟩ := exists_rootUrl_of_resolve fetcher options document resolved
  have isLocation := Options.isLocation_of_rootUrl known
  obtain ⟨events, run⟩ := document.exists_run fetcher options isLocation
  rw [document.resolve_of_rootUrl fetcher options known, Except.ok.injEq] at resolved
  exact ⟨root, events, _, known, isLocation, run, resolved.symm⟩

end SchemaBundle
