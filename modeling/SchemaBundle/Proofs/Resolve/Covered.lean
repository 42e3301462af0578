import SchemaBundle.Proofs.Resolve.Complete
import SchemaBundle.Proofs.Resolve.Dangling

/-!
# Names without a definition

In a bundle that nothing was cut off from, a reference that names a definition names one that is
there, or the name is reported as missing, or the reference could not be located, which is reported
as well (`resolve_covered`). A reference that stayed in the root document was looked up; one that
was resolved has the name of a merge; one whose target could not be read has its absolute form,
which names no definition of the registry.

Left out are the references that lead back into the root document, since the definitions that they
name are not looked up: what is missing there goes unreported (`resolve_uncovered`).
-/

namespace SchemaBundle

/-! ## References that name a definition -/

namespace Layout

variable {layout : Layout} {reference name : String}

/-- What every local reference starts with is a hash and a pointer. -/
theorem exists_start (layout : Layout) : ∃ pointer : List Char,
    layout.start.toList = '#' :: '/' :: pointer ∧ '#' ∉ pointer ∧ pointer ≠ [] := by
  cases layout
  · exact ⟨"definitions/".toList, by decide, by decide, by decide⟩
  · exact ⟨"components/schemas/".toList, by decide, by decide, by decide⟩

theorem exists_of_localName? (h : layout.localName? reference = some name) :
    ∃ segment, reference.toList = layout.start.toList ++ segment :=
  (localName?_eq_some_iff.1 h).imp fun _ => And.left

theorem head?_of_localName? (h : layout.localName? reference = some name) :
    reference.toList.head? = some '#' := by
  obtain ⟨segment, chars⟩ := exists_of_localName? h
  obtain ⟨pointer, start, -⟩ := layout.exists_start
  rw [chars, start]
  rfl

/-- A name is read off the local reference to it, and off no other. -/
theorem eq_of_localName?_localRef {other : String}
    (h : layout.localName? (layout.localRef other) = some name) : other = name := by
  by_cases empty : other = ""
  · subst empty
    cases layout <;> cases h
  · rw [localName?_localRef layout empty, Option.some.injEq] at h
    exact h

end Layout

/-- Why a reference that names a definition is refused in the document at `base`. -/
inductive Url.Refuses (base : Url) : ReferenceFault → Prop
  | severalHashes : Refuses base .severalHashes
  | noBase (isOpaque : base.isOpaque = true) : Refuses base (.notAUrl .relativeToOpaqueBase)

namespace Target

variable {layout : Layout} {reference name : String} {base : Url}

/-- A reference that names a definition leads into the document that it stands in, or is refused. -/
theorem locate_of_localName? (h : layout.localName? reference = some name)
    (whole : base.fragment = none) :
    (∃ fault, base.Refuses fault ∧
        locate reference base = .error (.malformedReference reference fault)) ∨
      ∃ t, locate reference base = .ok t ∧ t.location = base := by
  obtain ⟨segment, chars⟩ := Layout.exists_of_localName? h
  obtain ⟨pointer, start, noHash, nonempty⟩ := layout.exists_start
  rw [start] at chars
  by_cases several : '#' ∈ segment
  · have parts : Text.splitFirst? '#' reference.toList
        = some ([], '/' :: pointer ++ segment) := by
      rw [chars]
      rfl
    refine .inl ⟨_, .severalHashes, ?_⟩
    unfold locate
    rw [parts]
    simp [pointer?, several]
  · have isPointer : IsPointer (String.ofList ('/' :: pointer ++ segment)) := by
      refine ⟨by simp [noHash, several], by simp, fun same => nonempty ?_⟩
      have chars : pointer = [] ∧ segment = [] := by simpa using congrArg String.toList same
      exact chars.1
    obtain rfl : reference = "#" ++ String.ofList ('/' :: pointer ++ segment) :=
      String.toList_inj.1 (by simp [chars])
    rcases locate_hash_cases whole isPointer with ⟨-, located⟩ | ⟨isOpaque, refused⟩
    · exact .inr ⟨_, located, rfl⟩
    · exact .inl ⟨_, .noBase isOpaque, refused⟩

/-- The absolute form of a target names no definition of the registry. -/
theorem IsLocated.localName?_absoluteReference {t : Target} (h : t.IsLocated) :
    layout.localName? t.absoluteReference = none := by
  rw [Option.eq_none_iff_forall_ne_some]
  intro name names
  have nonempty : t.location.text.toList ≠ [] := by
    rw [Url.toList_text h.location.whole]
    simp
  obtain ⟨c, rest, chars⟩ := List.exists_cons_of_ne_nil nonempty
  have noHash : '#' ∉ t.location.text.toList := h.key_text
  have absolute : t.absoluteReference.toList.head? = some c := by
    unfold absoluteReference
    split <;> simp [chars]
  rw [Layout.head?_of_localName? names, Option.some.injEq] at absolute
  rw [chars, absolute] at noHash
  exact noHash (List.mem_cons_self ..)

end Target

/-! ## Names that are accounted for -/

/-- A reference does not lead into the root document. -/
def RefNode.LeadsAway (root : Url) (scope : Scope) (r : RefNode) : Prop :=
  ∀ t, Target.locate r.reference (scope.base root) = .ok t → t.location ≠ root

/-- What is known of a name that stands in a bundle, in the reference `r'` that was made from one of
the document at `base`. -/
inductive Resolved.Covers (result : Resolved) (base : Url) (r r' : RefNode) (name : String) : Prop
  /-- It is that of a definition. -/
  | present (present : name ∈ Entries.keys result.document.definitions)
  /-- It is reported as missing. -/
  | missing (reported : ∃ warning ∈ result.report.warnings,
      warning.kind = .danglingReference name)
  /-- The reference was refused, which is reported, and stays as it was written. -/
  | malformed {fault : ReferenceFault} (refuses : base.Refuses fault) (same : r' = r)
    (located : Target.locate r.reference base
      = .error (.malformedReference r.reference fault))
    (reported : .unresolved r.reference (.malformedReference r.reference fault)
      ∈ result.report.warnings)

section Covered

variable {setting : Setting} {events : List Event} {p q : Pass} {scope : Scope} {r : RefNode}

/-- No merge begins at a reference that stays in the root document. -/
theorem Trace.followed_of_stays (h : Trace setting events p q)
    (met : .reference scope r ∈ events.filterMap Event.stop?) (stays : ¬ r.Leaves scope) :
    ∃ earlier depth later, events = earlier ++ .followed depth scope r :: later := by
  obtain ⟨event, member, isStop⟩ := List.mem_filterMap.1 met
  obtain ⟨earlier, later, rfl⟩ := List.append_of_mem member
  cases event with
  | followed depth other s =>
    cases isStop
    exact ⟨earlier, depth, later, rfl⟩
  | opened depth other s t name =>
    cases isStop
    obtain ⟨_, _, -, here, -⟩ := h.leads
    cases here with
    | opened opens => exact absurd opens.leaves stays
  | _ => cases isStop

namespace Document.Bundled

variable {fetcher : Fetcher} {options : Options} {document : Document} {root : Url}
  {copies : List Copy} {done : Definitions} {source : Scope × Node} {place : List PlaceStep}
  {name : String}

/-- A reference that stayed in the root document was looked up. Its name was in use then, and is
that of a definition at the end; or it was reported. -/
theorem present_or_dangles (h : document.Bundled fetcher options root q copies done)
    (run : document.Run fetcher options root events q) (isLocation : root.IsLocation)
    (whole : ¬ DepthReported (document.setting fetcher options) source.1 q)
    (isSource : source ∈ bundleSources document copies) (found : source.2.refAt? place = some r)
    (stays : ¬ r.Leaves source.1) (names : document.layout.localName? r.reference = some name) :
    name ∈ Entries.keys q.definitions ∨ q.Dangles name := by
  rcases mem_bundleSources.1 isSource with ⟨entry, isEntry, rfl⟩ | ⟨copy, -, rfl⟩
  · obtain ⟨entry', -, redefined⟩ := forall₂_left h.related isEntry
    have met : .reference .root r ∈ events.filterMap Event.stop? :=
      run.stops isLocation (List.mem_flatMap.2
        ⟨entry, isEntry, mem_stops_of_related redefined.2 whole found⟩)
    obtain ⟨earlier, depth, later, same⟩ := run.trace.followed_of_stays met stays
    by_cases present : name ∈ Entries.keys q.definitions
    · exact .inl present
    · right
      rw [run.mem_keys_iff isLocation, not_or] at present
      obtain ⟨absent, never⟩ := present
      have internal : r.format.isExternal = false := by
        simpa using (RefNode.not_leaves_iff.1 stays).1
      have notYet : name ∉ earlier.filterMap Event.name? := fun member =>
        never (same ▸ List.filterMap_append ▸ List.mem_append_left _ member)
      exact run.dangles_iff.2 ⟨later, earlier, depth, r, same, internal, names, absent, notYet⟩
  · exact absurd (r.leaves_external _) stays

end Document.Bundled

/-- What could not be resolved names no definition, unless it was refused. -/
theorem RefNode.Fails.refused {layout : Layout} {c : Cache} {e : ResolveError} {name : String}
    (h : r.Fails layout c scope e) (base : (scope.base c.root).IsLocation)
    (away : r.LeadsAway c.root scope)
    (names : layout.localName? (r.unresolved scope).reference = some name) :
    r.unresolved scope = r ∧ ∃ fault, (scope.base c.root).Refuses fault ∧
      e = .malformedReference r.reference fault ∧
      Target.locate r.reference (scope.base c.root) = .error e := by
  cases h with
  | malformed located =>
    have same := r.unresolved_of_malformed located
    rw [same] at names
    rcases Target.locate_of_localName? names base.whole with
      ⟨fault, refuses, refused⟩ | ⟨t, found, -⟩
    · exact ⟨same, fault, refuses, Except.error.inj (located.symm.trans refused), located⟩
    · cases located.symm.trans found
  | wholeRoot located inRoot => exact absurd inRoot (away _ located)
  | @unreadable t outcome _ located outside =>
    cases scope with
    | root =>
      -- as it was written, it would lead into the root document
      rcases Target.locate_of_localName? names base.whole with
        ⟨fault, -, refused⟩ | ⟨u, found, inRoot⟩
      · cases located.symm.trans refused
      · exact absurd inRoot (away _ found)
    | external location =>
      have isLocated := Target.isLocated_of_locate base.wellFormed located
      have absolute : r.unresolved (.external location)
          = { r with reference := t.absoluteReference, format := .url } :=
        RefNode.unresolved_of_located located
      rw [absolute, isLocated.localName?_absoluteReference] at names
      cases names

namespace Document.Bundled

variable {fetcher : Fetcher} {options : Options} {document : Document} {root : Url}
  {copies : List Copy} {done : Definitions} {source : Scope × Node} {place : List PlaceStep}
  {name : String}

/-- A reference that leads away has the name of a merge, or names no definition, unless it was
refused. -/
theorem present_or_refused (h : document.Bundled fetcher options root q copies done)
    (isLocation : root.IsLocation)
    (whole : ∀ scope, ¬ DepthReported (document.setting fetcher options) scope q)
    (isSource : source ∈ bundleSources document copies) (found : source.2.refAt? place = some r)
    (leaves : r.Leaves source.1) (away : r.LeadsAway q.cache.root source.1)
    (names : document.layout.localName? (r.rewrite document.layout q.cache source.1).reference
      = some name) :
    name ∈ Entries.keys q.definitions ∨
      r.rewrite document.layout q.cache source.1 = r ∧
        ∃ fault, (source.1.base q.cache.root).Refuses fault ∧
          Target.locate r.reference (source.1.base q.cache.root)
            = .error (.malformedReference r.reference fault) ∧
          .unresolved r.reference (.malformedReference r.reference fault) ∈ q.warnings := by
  have isStop := h.mem_allStops whole isSource place r found
  have decided : r.Decided document.layout q.cache source.1 := h.ledger.decided _ isStop
  rcases decided leaves with reaches | ⟨e, fault⟩
  · cases reaches.destination leaves with
    | root located inRoot => exact absurd inRoot (away _ located)
    | @named t other located outside isNamed becomes =>
      rw [becomes] at names
      obtain rfl := Layout.eq_of_localName?_localRef names
      exact .inl (h.merges.mem_keys isNamed)
  · have base := h.isLocation_base isLocation isSource
    have fails := (RefNode.fails_of_fault? fault).2
    have becomes := fails.rewrite_eq leaves base.wellFormed h.sound
    rw [becomes] at names ⊢
    obtain ⟨same, cause, refuses, rfl, located⟩ := fails.refused base away names
    exact .inr ⟨same, cause, refuses, located, h.reported isStop fault⟩

end Document.Bundled

end Covered

/-- The references of a bundle are those of its sources, rewritten. If one names a definition, its
name is accounted for, provided that the reference it was made from stays in the root document or
leads away from it. -/
def Resolved.CoversNames (document : Document) (copies : List Copy) (result : Resolved) : Prop :=
  List.Forall₂ (fun source entry => ∀ place r', entry.2.refAt? place = some r' →
      ∃ r, source.2.refAt? place = some r ∧
        r' = r.rewrite document.layout result.cache source.1 ∧
        ((r.Leaves source.1 → r.LeadsAway result.cache.root source.1) → ∀ name,
          document.layout.localName? r'.reference = some name →
            result.Covers (source.1.base result.cache.root) r r' name))
    (bundleSources document copies) result.document.definitions

/-- **No name goes unaccounted for.** In a bundle that nothing was cut off from, a reference that
names a definition names one that is there or that is reported as missing, or was refused and is
reported for it. This takes that the reference that it was made from stays in the root document or
leads away from it. -/
theorem resolve_covered {fetcher : Fetcher} {options : Options} {document : Document}
    {result : Resolved} (resolved : document.resolve fetcher options = .ok result)
    (whole : result.report.NothingCut) :
    ∃ copies, result.IsRewriting fetcher document copies ∧ result.CoversNames document copies := by
  obtain ⟨root, events, q, known, isLocation, run, rfl⟩ := Document.exists_run_of_resolve resolved
  obtain ⟨copies, done, bundled⟩ := document.lastPass_bundled fetcher options isLocation
  rw [← run.unique] at bundled
  have uncut (scope : Scope) : ¬ DepthReported (document.setting fetcher options) scope q :=
    not_depthReported whole
  have sources := (List.forall₂_and_left _ _).2
    ⟨fun source (isSource : source ∈ bundleSources document copies) => isSource,
      bundled.forall₂_sources⟩
  refine ⟨copies, bundled.isRewriting whole, sources.imp ?_⟩
  rintro source entry ⟨isSource, room, related⟩ place r' found'
  obtain ⟨r, found, here⟩ := optionRel_right (related.refAt? place) found'
  have followed := here.resolve_right fun beyond => uncut source.1 beyond.2.2
  obtain rfl : r' = r.rewrite document.layout q.cache source.1 :=
    followed.2.knows q.cache bundled.sound (.refl _)
  refine ⟨r, found, rfl, fun away name names => ?_⟩
  by_cases leaves : r.Leaves source.1
  · rcases bundled.present_or_refused isLocation uncut isSource found leaves (away leaves) names
      with present | ⟨same, fault, refuses, located, reported⟩
    · exact .present present
    · exact .malformed refuses same located reported
  · have kept : r.rewrite document.layout q.cache source.1 = r := by
      rw [RefNode.rewrite, if_neg leaves]
    rw [kept] at names
    rcases bundled.present_or_dangles run isLocation (uncut source.1) isSource found leaves names
      with present | missing
    · exact .present present
    · exact .missing missing

/-- The names in the sample of a report that is wrong are accounted for, one of them twice. -/
theorem resolve_covered_early :
    ∃ result copies, Sample.early.resolve Sample.fetcher .default = .ok result ∧
      result.report.NothingCut ∧ result.IsRewriting Sample.fetcher Sample.early copies ∧
      result.CoversNames Sample.early copies := by
  obtain ⟨result, resolved, kinds, -⟩ := Sample.exists_early
  have whole : result.report.NothingCut := Report.nothingCut_of_kinds kinds (by simp)
  obtain ⟨copies, rewriting, covers⟩ := resolve_covered resolved whole
  exact ⟨result, copies, resolved, whole, rewriting, covers⟩

/-! ## Names that are not -/

/-- Every name that stands in a bundle is that of a definition or is reported as missing. -/
def Resolved.NamesKnown (result : Resolved) : Prop :=
  ∀ entry ∈ result.document.definitions, entry.2.AllRefs fun r => ∀ name,
    result.document.layout.localName? r.reference = some name →
      name ∈ Entries.keys result.document.definitions ∨
        ∃ warning ∈ result.report.warnings, warning.kind = .danglingReference name

/-- One name is enough. -/
theorem Resolved.not_namesKnown {result : Resolved} {key text name : String}
    {place : List PlaceStep} {keys : List String} {kinds : List WarningKind}
    (stands : result.textAt? key place = some text)
    (names : result.document.layout.localName? text = some name)
    (isKeys : Entries.keys result.document.definitions = keys)
    (isKinds : result.report.warnings.map Warning.kind = kinds)
    (absent : name ∉ keys) (unreported : .danglingReference name ∉ kinds) :
    ¬ result.NamesKnown := by
  intro known
  simp only [textAt?, Option.bind_eq_some_iff, Option.map_eq_some_iff] at stands
  obtain ⟨node, found, r, there, rfl⟩ := stands
  rcases known _ (Entries.mem_of_find? found) place r there name names with present | reported
  · exact absent (isKeys ▸ present)
  · exact unreported (isKinds ▸ List.mem_map.2 reported)

namespace Sample

/-- A document that refers to a definition of its own by its location. There is none. -/
def roundabout : Document :=
  ⟨.swagger2, [("Start", .ref ⟨"swagger.yaml#/definitions/Gone", .relativeFile, []⟩)],
    [("definitions", .null)]⟩

/-- A document with a definition whose name has a hash, which it refers to. -/
def hashed : Fetcher :=
  .inMemory [("file:///pets.yaml", ("definitions:\n" ++
    "  Pet: \x7b$ref: '#/definitions/a#b'\x7d\n" ++
    "  a#b: \x7btype: string\x7d\n").toUTF8.toList)]

theorem unreported_roundabout : ∃ result, roundabout.resolve hashed .default = .ok result ∧
    result.report.NothingCut ∧ ¬ result.NamesKnown := by
  have run : (roundabout.resolve hashed .default).toOption.map (fun result =>
      (result.document.layout, Entries.keys result.document.definitions,
        result.report.warnings.map Warning.kind, result.textAt? "Start" []))
      = some (.swagger2, ["Start"], [], some "#/definitions/Gone") := by
    decide +kernel
  obtain ⟨result, resolved, facts⟩ := exists_of_toOption_map run
  simp only [Prod.mk.injEq] at facts
  obtain ⟨layout, keys, kinds, stands⟩ := facts
  have names : result.document.layout.localName? "#/definitions/Gone" = some "Gone" := by
    rw [layout]
    decide
  exact ⟨result, resolved, Report.nothingCut_of_kinds kinds (by simp),
    Resolved.not_namesKnown stands names keys kinds (by decide) (by simp)⟩

theorem unreported_hashed : ∃ result, document.resolve hashed .default = .ok result ∧
    result.report.NothingCut ∧ ¬ result.NamesKnown := by
  have run : (document.resolve hashed .default).toOption.map (fun result =>
      (result.document.layout, Entries.keys result.document.definitions,
        result.report.warnings.map Warning.kind, result.textAt? "Pet" []))
      = some (.swagger2, ["Start", "Pet"], [.malformedReference],
        some "#/definitions/a#b") := by
    decide +kernel
  obtain ⟨result, resolved, facts⟩ := exists_of_toOption_map run
  simp only [Prod.mk.injEq] at facts
  obtain ⟨layout, keys, kinds, stands⟩ := facts
  have names : result.document.layout.localName? "#/definitions/a#b" = some "a#b" := by
    rw [layout]
    decide
  exact ⟨result, resolved, Report.nothingCut_of_kinds kinds (by simp),
    Resolved.not_namesKnown stands names keys kinds (by decide) (by simp)⟩

end Sample

/-- The name in a reference that leads back into the root document is not looked up, and one in a
reference with several hashes is not reported as missing. -/
theorem resolve_uncovered :
    (∃ result, Sample.roundabout.resolve Sample.hashed .default = .ok result ∧
      result.report.NothingCut ∧ ¬ result.NamesKnown) ∧
    ∃ result, Sample.document.resolve Sample.hashed .default = .ok result ∧
      result.report.NothingCut ∧ ¬ result.NamesKnown :=
  ⟨Sample.unreported_roundabout, Sample.unreported_hashed⟩

end SchemaBundle
