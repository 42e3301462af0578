import SchemaBundle.Proofs.Resolve.Copies
import SchemaBundle.Proofs.Resolve.Covered

/-!
# The depth of a copy

A fragment is walked once, one level below the first reference that leads to it, and all references
to it share the copy. So it is the depth of that first reference that decides how far the copy is
looked into: down to the limit each of its references is settled, and below it each stays as it was
written (`resolve_depth_of_first`).

A later reference that stands higher is no better off. Its fragment may be cut although a walk from
there would have stayed within the limit (`resolve_cut_by_first`).
-/

namespace SchemaBundle

open Walk

/-- A reference leads from a scope to a target. -/
def RefNode.LeadsTo (root : Url) (scope : Scope) (t : Target) (r : RefNode) : Prop :=
  r.Leaves scope ∧ Target.locate r.reference (scope.base root) = .ok t

/-- In a history the first reference that leads to the target of a copy is met at a depth, and there
the merge of the copy begins. -/
def Copy.FirstMet (root : Url) (events : List Event) (copy : Copy) (depth : Nat) : Prop :=
  ∃ earlier scope r later,
    events = earlier ++ .opened depth scope r copy.target copy.name :: later ∧
      r.LeadsTo root scope copy.target ∧
      ∀ other s, .reference other s ∈ earlier.filterMap Event.stop? →
        ¬ s.LeadsTo root other copy.target

/-- What became of a reference of a copy that was followed: it stands for its target, or it could
not be located, which was reported, and is as it was written. -/
inductive Resolved.Settles (result : Resolved) (location : Url) (r r' : RefNode) : Prop
  | stands {t : Target} (located : Target.locate r.reference location = .ok t)
    (stands : result.Stands r t r')
  | unlocated {e : ResolveError} (located : Target.locate r.reference location = .error e)
    (same : r' = r) (reported : ∃ e, Warning.unresolved r.reference e ∈ result.report.warnings)

/-- The references of a copy whose merge begins at a depth: each that comes to stand within the
limit is settled, and each beyond is left as it was written, which is reported. -/
def Resolved.CutAt (result : Resolved) (limit depth : Nat) (copy : Copy) : Prop :=
  ∀ {place r}, copy.source.refAt? place = some r → ∃ r', copy.result.refAt? place = some r' ∧
    (depth + 1 + levels place ≤ limit ∧ result.Settles copy.target.location r r' ∨
      limit < depth + 1 + levels place ∧ r' = r ∧
        .tooDeep copy.target.location.text limit ∈ result.report.warnings)

section Depth

variable {fetcher : Fetcher} {options : Options} {document : Document} {root : Url} {q : Pass}
  {events : List Event} {copy : Copy}

/-- A merge begins at the first reference that leads to its fragment, and the copy has the room that
is left below. -/
theorem Document.Run.firstMet (h : document.Run fetcher options root events q)
    (isCopy : copy ∈ events.filterMap Event.copy?) :
    ∃ depth, copy.FirstMet root events depth ∧ copy.room = options.maxDepth - depth := by
  obtain ⟨earlier, depth, scope, r, later, rfl, room⟩ := Sweeps.beginsIn h copy isCopy
  have trace := h.trace
  obtain ⟨p, _, before, here, -⟩ := trace.leads
  have isRoot : p.cache.root = root := before.before.cache.root
  refine ⟨depth, ⟨earlier, scope, r, later, rfl, ?_, ?_⟩, room⟩
  · cases here with
    | opened opens => exact ⟨opens.leaves, isRoot ▸ opens.located⟩
  · rintro other s met ⟨leaves, located⟩
    exact trace.first met leaves located

/-- A reference of another document that was followed is settled. -/
theorem Followed.settles {setting : Setting} {location : Url} {r r' : RefNode}
    {merged : List Merged} {fetches : Nat}
    (h : Followed setting (.external location) r r' q) (isLocation : location.IsLocation)
    (sound : q.cache.Sound setting.layout setting.fetcher) (whole : q.cache.root.fragment = none)
    (layout : document.layout = setting.layout)
    (present : ∀ {key name}, q.cache.localName? key = some name →
      name ∈ Entries.keys document.definitions) :
    Resolved.Settles ⟨document, ⟨q.warnings, merged, fetches⟩, q.cache⟩ location r r' := by
  cases located : Target.locate r.reference location with
  | ok t => exact .stands located (h.stands isLocation sound whole layout present located)
  | error e =>
    have leaves := r.leaves_external location
    have same : r' = r := by
      rw [h.knows q.cache sound (.refl _), RefNode.rewrite, if_pos leaves]
      simp only [Scope.base, located]
    have reported : ∃ e, Warning.unresolved r.reference e ∈ q.warnings := by
      refine (h.reaches leaves).resolve_left ?_
      rintro ⟨t, located', -⟩
      cases located.symm.trans located'
    exact .unlocated located same reported

end Depth

/-- **The first reference decides.** Each merged definition is a copy that was begun at the first
reference that leads to its fragment. By the depth at which that was met, the references of the copy
are settled down to the limit, and left as they were written below it. -/
theorem resolve_depth_of_first {fetcher : Fetcher} {options : Options} {document : Document}
    {result : Resolved} (resolved : document.resolve fetcher options = .ok result) :
    ∃ root events q, options.rootUrl = .ok root ∧ document.Run fetcher options root events q ∧
      result = ⟨{ document with definitions := q.definitions },
        ⟨q.warnings, q.merged, q.cache.fetches⟩, q.cache⟩ ∧
      result.report.merged = (events.filterMap Event.copy?).map Copy.merged ∧
      (∃ kept, Entries.keys kept = Entries.keys document.definitions ∧
        result.document.definitions = kept ++ (events.filterMap Event.copy?).map Copy.entry) ∧
      ∀ copy ∈ events.filterMap Event.copy?, copy.IsRead document.layout fetcher ∧
        result.cache.localName? copy.target.key = some copy.name ∧
        ∃ depth, copy.FirstMet root events depth ∧ result.CutAt options.maxDepth depth copy := by
  obtain ⟨root, events, q, known, isLocation, run, rfl⟩ := Document.exists_run_of_resolve resolved
  obtain ⟨sound, merges, kept, keys, definitions⟩ := run.merges isLocation
  refine ⟨root, events, q, known, run, rfl, merges.merged, ⟨kept, keys, definitions⟩, ?_⟩
  intro copy isCopy
  have faithful := merges.faithful copy isCopy
  obtain ⟨depth, first, room⟩ := run.firstMet isCopy
  refine ⟨faithful.isRead sound, merges.named copy isCopy, depth, first, ?_⟩
  intro place r found
  obtain ⟨r', there, here⟩ := optionRel_left (faithful.related.refAt? place) found
  refine ⟨r', there, ?_⟩
  rcases here with ⟨within, followed⟩ | ⟨beyond, same, reported⟩
  · left
    have whole : q.cache.root.fragment = none := by
      rw [merges.toBefore.cache.root]
      exact isLocation.whole
    exact ⟨by omega, followed.settles faithful.located.location sound whole rfl merges.mem_keys⟩
  · exact .inr ⟨by omega, same, reported⟩

/-- Both copies of the sample are settled as far as the depth of their first references allows. -/
theorem resolve_depth_of_first_sample :
    ∃ result events q, Sample.document.resolve Sample.fetcher .default = .ok result ∧
      Sample.document.Run Sample.fetcher .default Sample.root events q ∧
      (events.filterMap Event.copy?).length = 2 ∧
      ∀ copy ∈ events.filterMap Event.copy?, ∃ depth,
        copy.FirstMet Sample.root events depth ∧ result.CutAt 64 depth copy := by
  obtain ⟨result, resolved, report⟩ := Sample.exists_result
  obtain ⟨root, events, q, known, run, -, merged, -, copied⟩ := resolve_depth_of_first resolved
  obtain rfl : Sample.root = root := Except.ok.inj known
  rw [report] at merged
  have length := congrArg List.length merged
  rw [List.length_map] at length
  exact ⟨result, events, q, resolved, run, length.symm,
    fun copy isCopy => (copied copy isCopy).2.2⟩

/-! ## Copies that are cut too early -/

/-- The walk of a schema of another document, from a depth on and with nothing merged before, does
not come to the limit. -/
def Setting.Fits (setting : Setting) (root : Url) (depth : Nat) (location : Url) (node : Node) :
    Prop :=
  Report.NothingCut ⟨(walkNode setting (setting.options.maxDepth + 1 - depth) (.external location)
    node (Pass.start [] (Cache.empty root))).2.warnings, [], 0⟩

/-- Copies do not hang on the reference that was met first: if a definition is a reference, and so
is met at depth zero, and has become the local reference to a copy whose fragment fits one level
below, every reference of the copy stands for its target. -/
def Resolved.DepthBlind (fetcher : Fetcher) (options : Options) (document : Document)
    (result : Resolved) : Prop :=
  ∀ key r, (key, .ref r) ∈ document.definitions →
    ∀ copy : Copy, copy.merged ∈ result.report.merged → copy.IsRead document.layout fetcher →
      Entries.find? copy.name result.document.definitions = some copy.result →
      r.LeadsTo result.cache.root .root copy.target →
      result.textAt? key [] = some (document.layout.localRef copy.name) →
      (document.setting fetcher options).Fits result.cache.root 1 copy.target.location
        copy.source →
      ∀ {place s}, copy.source.refAt? place = some s → ∃ s', copy.result.refAt? place = some s' ∧
        ∃ t, Target.locate s.reference copy.target.location = .ok t ∧ result.Stands s t s'

/-- What the walk of a fragment reports that begins one level down, with nothing merged before, and
the reference at a place of the fragment. -/
def Target.walkedAt? (setting : Setting) (root : Url) (t : Target) (place : List PlaceStep) :
    Option (List WarningKind × String) :=
  (Cache.fetchDocument setting.fetcher 0 t.location).toOption.bind fun value =>
    (t.select value).toOption.bind fun part =>
      let node := Node.ofJson setting.layout part
      (node.refAt? place).map fun r =>
        ((walkNode setting setting.options.maxDepth (.external t.location) node
          (Pass.start [] (Cache.empty root))).2.warnings.map Warning.kind, r.reference)

/-- One reference that does not stand for its target is enough, in the copy of a fragment that a
definition refers to and that fits there. -/
theorem Resolved.not_depthBlind {fetcher : Fetcher} {options : Options} {document : Document}
    {result : Resolved} {key name text text' : String} {r : RefNode} {t : Target}
    {place : List PlaceStep} {kinds : List WarningKind}
    (isEntry : (key, .ref r) ∈ document.definitions)
    (leads : r.LeadsTo result.cache.root .root t) (isLocated : t.IsLocated)
    (becomes : result.textAt? key [] = some (document.layout.localRef name))
    (member : ⟨t.key.text, name⟩ ∈ result.report.merged)
    (source : t.walkedAt? (document.setting fetcher options) result.cache.root place
      = some (kinds, text))
    (fits : ∀ depth, .depthExceeded depth ∉ kinds)
    (copied : result.textAt? name place = some text')
    (nowhere : ∀ u, Target.locate text t.location = .ok u → u.location ≠ result.cache.root ∧
      result.cache.localName? u.key = none ∧ text' ≠ u.absoluteReference) :
    ¬ result.DepthBlind fetcher options document := by
  intro blind
  simp only [Target.walkedAt?, Option.bind_eq_some_iff, Option.map_eq_some_iff,
    Prod.mk.injEq] at source
  simp only [textAt?, Option.bind_eq_some_iff, Option.map_eq_some_iff] at copied
  obtain ⟨value, fetched, part, selected, s, atSource, isKinds, rfl⟩ := source
  obtain ⟨node, found, s', atCopy, rfl⟩ := copied
  let copy : Copy := ⟨t, name, Node.ofJson document.layout part, 0, node⟩
  have read : copy.IsRead document.layout fetcher :=
    ⟨isLocated, 0, value, part, eq_ok_of_toOption fetched, eq_ok_of_toOption selected, rfl⟩
  have fits : (document.setting fetcher options).Fits result.cache.root 1 t.location
      copy.source := Report.nothingCut_of_kinds isKinds fits
  obtain ⟨other, atCopy', u, located, stands⟩ :=
    blind key r isEntry copy member read found leads becomes fits atSource
  obtain rfl : s' = other := Option.some.inj (atCopy.symm.trans atCopy')
  obtain ⟨outside, unnamed, ne⟩ := nowhere u located
  cases stands with
  | inRoot inRoot => exact outside inRoot
  | named _ named =>
    rw [unnamed] at named
    cases named
  | absolute becomes => exact ne (congrArg RefNode.reference becomes)

namespace Sample

/-- A document that refers to the same fragment twice, first from the depth of two. -/
def lowFirst : Document :=
  ⟨.swagger2, [("Low", .array (some (.array (some (.ref
        ⟨"other.yaml#/definitions/P", .relativeFile, []⟩)) [])) []),
      ("High", .ref ⟨"other.yaml#/definitions/P", .relativeFile, []⟩)], [("definitions", .null)]⟩

/-- A document that refers to a fragment with several hashes in it. -/
def odd : Document :=
  ⟨.swagger2, [("Odd", .ref ⟨"other.yaml#/definitions/R", .relativeFile, []⟩)],
    [("definitions", .null)]⟩

/-- The first of the fragments is one level deep and leads to another. -/
def chained : Fetcher :=
  .inMemory [("file:///other.yaml", ("definitions:\n" ++
    "  P: \x7bitems: \x7b$ref: '#/definitions/Q'\x7d\x7d\n" ++
    "  Q: \x7btype: string\x7d\n" ++
    "  R: \x7b$ref: '#/definitions/a#b'\x7d\n").toUTF8.toList)]

/-- From the first reference on, the fragment comes to the limit of three, and its reference is left
as it is. From the second on it would not. -/
theorem cut_lowFirst : ∃ result, lowFirst.resolve chained ⟨none, 3, true⟩ = .ok result ∧
    ¬ result.DepthBlind chained ⟨none, 3, true⟩ lowFirst := by
  have run : (lowFirst.resolve chained ⟨none, 3, true⟩).toOption.map (fun result =>
      (result.report.merged, result.textAt? "High" [], result.textAt? "P" [.items],
        result.cache.localName? ⟨"file:///other.yaml", "/definitions/Q"⟩, result.cache.root))
      = some ([⟨"file:///other.yaml#/definitions/P", "P"⟩], some "#/definitions/P",
        some "#/definitions/Q", none, root) := by
    decide +kernel
  have source : Target.walkedAt? (lowFirst.setting chained ⟨none, 3, true⟩) root
      ⟨other, some "/definitions/P"⟩ [.items] = some ([], "#/definitions/Q") := by
    decide +kernel
  obtain ⟨result, resolved, facts⟩ := exists_of_toOption_map run
  simp only [Prod.mk.injEq] at facts
  obtain ⟨merged, becomes, copied, unnamed, isRoot⟩ := facts
  rw [show "#/definitions/P" = lowFirst.layout.localRef "P" by decide] at becomes
  rw [← isRoot] at source
  have leads : RefNode.LeadsTo result.cache.root .root ⟨other, some "/definitions/P"⟩
      ⟨"other.yaml#/definitions/P", .relativeFile, []⟩ := by
    rw [isRoot]
    exact ⟨.inl rfl, rfl⟩
  have leadsOn : Target.locate "#/definitions/Q" other
      = .ok ⟨other, some "/definitions/Q"⟩ := rfl
  refine ⟨result, resolved, ?_⟩
  refine Resolved.not_depthBlind (List.mem_cons_of_mem _ (List.mem_singleton_self _)) leads
    (isLocated_other (rfl : Target.locate "other.yaml#/definitions/P" _ = _)) becomes ?_
    source (by simp) copied ?_
  · rw [merged]
    decide
  · intro u located
    obtain rfl := Except.ok.inj (leadsOn.symm.trans located)
    rw [isRoot]
    exact ⟨by decide, unnamed, by decide⟩

/-- A reference with several hashes is left as it is at any depth. -/
theorem cut_odd : ∃ result, odd.resolve chained .default = .ok result ∧
    ¬ result.DepthBlind chained .default odd := by
  have run : (odd.resolve chained .default).toOption.map (fun result =>
      (result.report.merged, result.textAt? "Odd" [], result.textAt? "R" [], result.cache.root))
      = some ([⟨"file:///other.yaml#/definitions/R", "R"⟩], some "#/definitions/R",
        some "#/definitions/a#b", root) := by
    decide +kernel
  have source : Target.walkedAt? (odd.setting chained .default) root
      ⟨other, some "/definitions/R"⟩ [] = some ([.malformedReference], "#/definitions/a#b") := by
    decide +kernel
  obtain ⟨result, resolved, facts⟩ := exists_of_toOption_map run
  simp only [Prod.mk.injEq] at facts
  obtain ⟨merged, becomes, copied, isRoot⟩ := facts
  rw [show "#/definitions/R" = odd.layout.localRef "R" by decide] at becomes
  rw [← isRoot] at source
  have leads : RefNode.LeadsTo result.cache.root .root ⟨other, some "/definitions/R"⟩
      ⟨"other.yaml#/definitions/R", .relativeFile, []⟩ := by
    rw [isRoot]
    exact ⟨.inl rfl, rfl⟩
  have leadsNowhere : Target.locate "#/definitions/a#b" other
      = .error (.malformedReference "#/definitions/a#b" .severalHashes) := rfl
  refine ⟨result, resolved, ?_⟩
  refine Resolved.not_depthBlind (List.mem_singleton_self _) leads
    (isLocated_other (rfl : Target.locate "other.yaml#/definitions/R" _ = _)) becomes ?_
    source (by simp) copied ?_
  · rw [merged]
    decide
  · intro u located
    cases leadsNowhere.symm.trans located

end Sample

/-- A copy is cut by the first reference although its fragment fits below the second. And what
cannot be located is left as it is, whether it fits or not. -/
theorem resolve_cut_by_first :
    (∃ result, Sample.lowFirst.resolve Sample.chained ⟨none, 3, true⟩ = .ok result ∧
      ¬ result.DepthBlind Sample.chained ⟨none, 3, true⟩ Sample.lowFirst) ∧
    ∃ result, Sample.odd.resolve Sample.chained .default = .ok result ∧
      ¬ result.DepthBlind Sample.chained .default Sample.odd :=
  ⟨Sample.cut_lowFirst, Sample.cut_odd⟩

end SchemaBundle
