import SchemaBundle.Proofs.Resolve.Depth
import SchemaBundle.Proofs.Resolve.ReadBack
import SchemaBundle.Proofs.Schema.Collected

/-!
# Every reference is walked or kept

A walk with room enough comes to the references of a schema that are not kept as they are, so
together with these, and with those in maps of fields on arrays, which are passed over, they are all
the references that are written of the schema.

It is the same with the copy of a fragment, which is written like its fragment except for what its
references point at. What was come to in the fragment was followed, or it lies beyond the limit,
which is reported; and what is kept is reported reference by reference. Only a reference that is
passed over goes unreported (`references_accounted`).
-/

namespace SchemaBundle

open Walk

/-- A reference in a copy is what became of a reference of the fragment that the pass came to, and
this one was settled. -/
def Copy.Handles (events : List Event) (result : Resolved) (copy : Copy) (text : String) : Prop :=
  ∃ place r r', copy.source.refAt? place = some r ∧ copy.result.refAt? place = some r' ∧
    r'.reference = text ∧
    .reference (.external copy.target.location) r ∈ events.filterMap Event.stop? ∧
    result.Settles copy.target.location r r'

/-- A reference in a copy stands beyond the limit, as it stands in the fragment, and this is
reported. -/
def Copy.CutsOff (limit : Nat) (result : Resolved) (copy : Copy) (text : String) : Prop :=
  ∃ place r, copy.source.refAt? place = some r ∧ copy.result.refAt? place = some r ∧
    r.reference = text ∧ copy.room ≤ levels place ∧
    .tooDeep copy.target.location.text limit ∈ result.report.warnings

/-- **The references of a copy are accounted for.** Those that are written of it are those that a
walk of it comes to, each of which was handled or cut off; those that are kept, each of which is
reported; and those that are passed over. -/
def Copy.AccountedIn (events : List Event) (limit : Nat) (result : Resolved) (copy : Copy) : Prop :=
  let scope := Scope.external copy.target.location
  ∃ room, .tooDeep scope ∉ copy.result.stops scope room ∧
    ∃ walked, walked = (copy.result.stops scope room).filterMap Stop.text? ∧
      copy.result.toJson.refs.Perm
        (walked ++ copy.result.verbatimRefs ++ copy.result.part.skippedAbove room) ∧
      (∀ text ∈ walked, copy.Handles events result text ∨ copy.CutsOff limit result text) ∧
      copy.result.verbatimRefs.map (.unmodeled · copy.target.location.text)
        <:+: result.report.warnings

/-- Each reference that is written of a copy was handled, or is reported as kept, or is passed
over. -/
def Copy.CoveredIn (events : List Event) (result : Resolved) (copy : Copy) : Prop :=
  let scope := Scope.external copy.target.location
  ∃ room, .tooDeep scope ∉ copy.result.stops scope room ∧
    ∀ text ∈ copy.result.toJson.refs, copy.Handles events result text ∨
      .unmodeled text copy.target.location.text ∈ result.report.warnings ∨
      text ∈ copy.result.part.skippedAbove room

/-- If no subtree was too deep, nothing was cut off. -/
theorem Copy.AccountedIn.covered {events : List Event} {limit : Nat} {result : Resolved}
    {copy : Copy} (h : copy.AccountedIn events limit result) (whole : result.report.NothingCut) :
    copy.CoveredIn events result := by
  obtain ⟨room, ends, walked, rfl, parted, each, kept⟩ := h
  refine ⟨room, ends, fun text member => ?_⟩
  rw [parted.mem_iff, List.mem_append, List.mem_append] at member
  rcases member with (come | isKept) | passed
  · rcases each text come with handled | ⟨-, -, -, -, -, -, reported⟩
    · exact .inl handled
    · exact absurd rfl (whole _ reported _)
  · exact .inr (.inl (kept.subset (List.mem_map_of_mem isKept)))
  · exact .inr (.inr passed)

section Runs

variable {setting : Setting} {p q : Pass} {events : List Event} {n : Nat} {copy : Copy}

theorem Runs.stops_of_mem_copies {depth : Nat} {scope : Scope} {xs xs' : List Part}
    (h : Runs setting depth scope xs p xs' q events)
    (isCopy : copy ∈ events.filterMap Event.copy?) :
    copy.stops ⊆ events.filterMap Event.stop? :=
  fun _ isStop => h.stops_perm.mem_iff.2
    (List.mem_append_right _ (List.mem_flatMap.2 ⟨copy, isCopy, isStop⟩))

/-- A pass comes to the stops of the fragments that it merges. -/
theorem Sweeps.stops_of_mem_copies (h : Sweeps setting p n q events)
    (isCopy : copy ∈ events.filterMap Event.copy?) :
    copy.stops ⊆ events.filterMap Event.stop? := by
  induction h with
  | zero => cases isCopy
  | @succ n q s events more name node node' before here inside ih =>
    simp only [List.filterMap_append, List.filterMap_cons, Event.copy?, Event.stop?,
      List.filterMap_nil, List.append_nil, List.mem_append] at isCopy ⊢
    rcases isCopy with earlier | later
    · exact List.subset_append_of_subset_left _ (ih earlier)
    · exact List.subset_append_of_subset_right _ (inside.stops_of_mem_copies later)

/-- At the end of a merge what is kept of the copy is reported. -/
theorem Trace.reports_copy (h : Trace setting events p q)
    (isCopy : copy ∈ events.filterMap Event.copy?) :
    copy.result.verbatimRefs.map (.unmodeled · copy.target.location.text) <:+: q.warnings := by
  obtain ⟨event, member, closes⟩ := List.mem_filterMap.1 isCopy
  obtain ⟨earlier, later, rfl⟩ := List.append_of_mem member
  obtain ⟨s, s', -, here, after⟩ := h.leads
  cases here with
  | closed reserved =>
    cases closes
    obtain ⟨more, warnings⟩ := after.before.warnings
    have kept (t : Target) (p : Pass) : (p.closed t copy.name copy.result s).warnings
        = s.warnings ++ copy.result.verbatimRefs.map (.unmodeled · t.location.text) := by
      simp [Pass.closed, Pass.inserted, Pass.reported]
    exact ⟨s.warnings, more, kept _ _ ▸ warnings⟩
  | _ => cases closes

end Runs

section Copies

variable {fetcher : Fetcher} {options : Options} {document : Document} {root : Url} {q : Pass}
  {events : List Event} {copy : Copy}

/-- What a walk of a copy comes to was handled or cut off. -/
theorem Document.Run.handles (run : document.Run fetcher options root events q)
    (isLocation : root.IsLocation) (isCopy : copy ∈ events.filterMap Event.copy?) {room : Nat}
    {text : String} (isText : text ∈
      (copy.result.stops (.external copy.target.location) room).filterMap Stop.text?) :
    let result : Resolved := ⟨{ document with definitions := q.definitions },
      ⟨q.warnings, q.merged, q.cache.fetches⟩, q.cache⟩
    copy.Handles events result text ∨ copy.CutsOff options.maxDepth result text := by
  intro result
  obtain ⟨sound, merges, -, -, -⟩ := run.merges isLocation
  have faithful := merges.faithful copy isCopy
  obtain ⟨stop, isStop, reads⟩ := List.mem_filterMap.1 isText
  cases Node.isAt_of_mem_stops isStop with
  | tooDeep => cases reads
  | @reference place r' there _ =>
    obtain rfl : r'.reference = text := Option.some.inj reads
    obtain ⟨r, found, here⟩ := optionRel_right (faithful.related.refAt? place) there
    rcases here with ⟨within, followed⟩ | ⟨beyond, rfl, reported⟩
    · have whole : q.cache.root.fragment = none := by
        rw [merges.toBefore.cache.root]
        exact isLocation.whole
      have met : .reference (.external copy.target.location) r ∈ copy.stops :=
        Node.mem_stops_of_refAt? found within
      exact .inl ⟨place, r, r', found, there, rfl, Sweeps.stops_of_mem_copies run isCopy met,
        followed.settles faithful.located.location sound whole rfl merges.mem_keys⟩
    · exact .inr ⟨place, _, found, there, rfl, beyond, reported⟩

/-- The references of a copy are accounted for, unless a field of its fragment is called as a
reference is. -/
theorem Document.Run.accounts (run : document.Run fetcher options root events q)
    (isLocation : root.IsLocation) (isCopy : copy ∈ events.filterMap Event.copy?)
    (unnamed : copy.source.part.Unnamed) :
    copy.AccountedIn events options.maxDepth ⟨{ document with definitions := q.definitions },
      ⟨q.warnings, q.merged, q.cache.fetches⟩, q.cache⟩ := by
  obtain ⟨sound, merges, -, -, -⟩ := run.merges isLocation
  have faithful := merges.faithful copy isCopy
  obtain ⟨-, -, -, part, -, -, source⟩ := faithful.isRead sound
  have clear : copy.source.part.IsClear := by
    rw [source] at unnamed ⊢
    exact Part.IsRead.isClear (.node part) unnamed
  have alike : copy.result.part.mapRefs RefNode.unaimed
      = copy.source.part.mapRefs RefNode.unaimed :=
    congrArg Node.part (alike_of_relWithin sound faithful.related).symm
  obtain ⟨room, whole⟩ := Part.exists_room (.external copy.target.location) copy.result.part
  have whole := whole room (Nat.le_refl room)
  exact ⟨room, whole, _, rfl, Part.refs_perm (clear.of_mapRefs_eq alike) whole,
    fun _ isText => run.handles isLocation isCopy isText, run.trace.reports_copy isCopy⟩

end Copies

/-- **Every reference is walked or kept.** What is written of a schema that was read, with no field
called as a reference is, are the references that a walk comes to which the limit does not stop,
those that are kept as they are, and those in the maps of fields on its arrays, each once. And the
references of the copies that a pass makes of such schemas are accounted for: if no subtree was too
deep, each that is not in such a map was handled, or is reported as kept. -/
theorem references_accounted :
    (∀ (layout : Layout) (value : Json), let node := Node.ofJson layout value
      node.part.Unnamed → ∀ scope : Scope,
        (∃ room, ∀ enough, room ≤ enough → .tooDeep scope ∉ node.stops scope enough) ∧
        ∀ (setting : Setting) (p : Pass), .tooDeep scope ∉ node.stops scope (fullRoom setting) →
          ∃ node' q events,
            walkNode setting (fullRoom setting) scope node p = (node', q) ∧
            Runs setting 0 scope [node.part] p [node'.part] q events ∧
            (events.filterMap Event.stop?).Perm
              (allStops (node.stops scope (fullRoom setting)) (events.filterMap Event.copy?)) ∧
            node.toJson.refs.Perm ((node.stops scope (fullRoom setting)).filterMap Stop.text?
              ++ node.verbatimRefs ++ node.part.skippedAbove (fullRoom setting))) ∧
    ∀ {fetcher : Fetcher} {options : Options} {document : Document} {result : Resolved},
      document.resolve fetcher options = .ok result →
      ∃ root events q, document.Run fetcher options root events q ∧
        result.report.merged = (events.filterMap Event.copy?).map Copy.merged ∧
        ∀ copy ∈ events.filterMap Event.copy?, copy.IsRead document.layout fetcher ∧
          copy.entry ∈ result.document.definitions ∧
          (copy.source.part.Unnamed → copy.AccountedIn events options.maxDepth result ∧
            (result.report.NothingCut → copy.CoveredIn events result)) := by
  constructor
  · intro layout value node unnamed scope
    have clear : node.part.IsClear := Part.IsRead.isClear (.node value) unnamed
    refine ⟨Part.exists_room scope node.part, fun setting p whole => ?_⟩
    obtain ⟨events, run⟩ := exists_runs setting 0 scope [node.part] p
    have stops := run.stops_perm
    rw [List.flatMap_singleton] at stops
    exact ⟨_, _, events, rfl, run, stops, Part.refs_perm clear whole⟩
  · intro fetcher options document result resolved
    obtain ⟨root, events, q, -, isLocation, run, rfl⟩ := Document.exists_run_of_resolve resolved
    obtain ⟨sound, merges, done, -, definitions⟩ := run.merges isLocation
    refine ⟨root, events, q, run, merges.merged, fun copy isCopy => ?_⟩
    have entry : copy.entry ∈ q.definitions :=
      definitions ▸ List.mem_append_right _ (List.mem_map_of_mem isCopy)
    refine ⟨(merges.faithful copy isCopy).isRead sound, entry, fun unnamed => ?_⟩
    have accounted := run.accounts isLocation isCopy unnamed
    exact ⟨accounted, accounted.covered⟩

/-! ## An array in another document -/

/-- Whether the fragment at a target can be read, and no field of it is called as a reference is. -/
def Target.isUnnamedWithin (layout : Layout) (fetcher : Fetcher) (room : Nat) (t : Target) : Bool :=
  ((Cache.fetchDocument fetcher 0 t.location).toOption.bind fun value =>
    (t.select value).toOption).any fun part => (Node.ofJson layout part).part.isUnnamedWithin room

theorem Copy.IsRead.unnamed {layout : Layout} {fetcher : Fetcher} {copy : Copy} {room : Nat}
    (read : copy.IsRead layout fetcher) (isPure : fetcher.IsPure)
    (h : copy.target.isUnnamedWithin layout fetcher room = true) : copy.source.part.Unnamed := by
  obtain ⟨turn, value, part, fetched, selected, source⟩ := read.read
  rw [Cache.fetchDocument_of_isPure isPure turn 0] at fetched
  rw [Target.isUnnamedWithin, fetched] at h
  rw [source]
  exact Part.unnamed_of_isUnnamedWithin (by simpa [Except.toOption, selected] using h)

namespace Sample

/-- An array with a reference to follow, one to pass over, and one to keep. -/
def listing : Json :=
  .obj [("items", .obj [("$ref", .str "#/definitions/Tag")]),
    ("properties", .obj [("note", .obj [("$ref", .str "old.yaml")])]),
    ("x-see", .obj [("$ref", .str "more.yaml")])]

/-- A document that refers to such an array. -/
def listed : Document :=
  ⟨.swagger2, [("Start", .ref ⟨"other.yaml#/definitions/List", .relativeFile, []⟩)],
    [("definitions", .null)]⟩

/-- The document in which the array stands. -/
def lists : Fetcher :=
  .inMemory [("file:///other.yaml", ("definitions:\n" ++
    "  List: \x7bitems: \x7b$ref: '#/definitions/Tag'\x7d, " ++
    "properties: \x7bnote: \x7b$ref: old.yaml\x7d\x7d, x-see: \x7b$ref: more.yaml\x7d\x7d\n" ++
    "  Tag: \x7b\x7d\n").toUTF8.toList)]

end Sample

/-- Of the three references of an array one is walked, one is kept, and one is passed over; and they
are accounted for in the copy of such an array. -/
theorem references_accounted_listing :
    let node := Node.ofJson .swagger2 Sample.listing
    let room := fullRoom (Sample.listed.setting Sample.lists .default)
    node.part.Unnamed ∧ .tooDeep .root ∉ node.stops .root room ∧
    node.toJson.refs.length = 3 ∧
    node.toJson.refs.Perm ((node.stops .root room).filterMap Stop.text? ++ node.verbatimRefs
      ++ node.part.skippedAbove room) ∧
    ∃ (result : Resolved) (events : List Event) (copy : Copy),
      Sample.listed.resolve Sample.lists .default = .ok result ∧
      copy.merged = ⟨"file:///other.yaml#/definitions/List", "List"⟩ ∧
      copy.source.part.Unnamed ∧ copy.AccountedIn events 64 result ∧
      copy.CoveredIn events result := by
  intro node room
  have within : node.part.isUnnamedWithin 3 = true := by decide +kernel
  have unnamed := Part.unnamed_of_isUnnamedWithin within
  have ends : node.part.level 3 = [] := rfl
  have enough : 3 ≤ room := by decide
  have whole : .tooDeep .root ∉ node.stops .root room :=
    Part.tooDeep_notMem_of_level (Part.level_eq_nil_of_le ends enough)
  obtain ⟨-, -, -, -, -, -, parted⟩ :=
    (references_accounted.1 .swagger2 Sample.listing unnamed .root).2
      (Sample.listed.setting Sample.lists .default) (Pass.start [] (Cache.empty Sample.root)) whole
  refine ⟨unnamed, whole, by decide +kernel, parted, ?_⟩
  have run : (Sample.listed.resolve Sample.lists .default).toOption.map (fun result =>
      (result.report.merged, result.report.warnings.map Warning.kind))
      = some ([⟨"file:///other.yaml#/definitions/Tag", "Tag"⟩,
        ⟨"file:///other.yaml#/definitions/List", "List"⟩],
        [.unmodeledReference "file:///other.yaml"]) := by
    decide +kernel
  obtain ⟨result, resolved, report⟩ := exists_of_toOption_map run
  obtain ⟨report, kinds⟩ := Prod.mk.inj report
  have nothingCut : result.report.NothingCut := Report.nothingCut_of_kinds kinds (by simp)
  obtain ⟨root, events, q, -, merged, copies⟩ := references_accounted.2 resolved
  have member : ⟨"file:///other.yaml#/definitions/List", "List"⟩
      ∈ (events.filterMap Event.copy?).map Copy.merged := by
    rw [← merged, report]
    decide
  obtain ⟨copy, isCopy, isList⟩ := List.mem_map.1 member
  obtain ⟨read, -, accounted⟩ := copies copy isCopy
  have isPure : Sample.lists.IsPure := Fetcher.isPure_ofFunction _
  have target : copy.target = ⟨Sample.other, some "/definitions/List"⟩ := by
    refine Target.eq_of_key_text read.located (Sample.isLocated_other
      (rfl : Target.locate "other.yaml#/definitions/List" _ = _)) ?_
    exact congrArg Merged.source isList
  have computed : copy.target.isUnnamedWithin .swagger2 Sample.lists 3 = true := by
    rw [target]
    decide +kernel
  have unnamed := read.unnamed isPure computed
  obtain ⟨accounted, covered⟩ := accounted unnamed
  exact ⟨result, events, copy, resolved, isList, unnamed, accounted, covered nothingCut⟩

end SchemaBundle
