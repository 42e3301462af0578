import SchemaBundle.Proofs.Resolve.Walked

/-!
# The bundle is a faithful copy

A pass over a document that cuts nothing off is explained by the names in its final cache alone.
Each definition that was there is the one it was with its references rewritten by those names, and
each merged one is the fragment that its key selects, rewritten in the scope of its own document
(`resolve_faithful`). References that were rewritten early, when fewer names were known, or in the
middle of a cycle, are no exception.
-/

namespace SchemaBundle

/-- No subtree was left out because of its depth. -/
def Report.NothingCut (report : Report) : Prop :=
  ∀ warning ∈ report.warnings, ∀ depth, warning.kind ≠ .depthExceeded depth

/-- The source of a copy is what its target selects in the document that the fetcher gave. -/
structure Copy.IsRead (layout : Layout) (fetcher : Fetcher) (copy : Copy) : Prop where
  located : copy.target.IsLocated
  read : ∃ turn value part, Cache.fetchDocument fetcher turn copy.target.location = .ok value ∧
    copy.target.select value = .ok part ∧ copy.source = Node.ofJson layout part

/-- The definitions of a pass are those of a document and some copies, rewritten by the names that
the final cache knows. -/
structure Resolved.IsRewriting (fetcher : Fetcher) (document : Document) (copies : List Copy)
    (result : Resolved) : Prop where
  layout : result.document.layout = document.layout
  rest : result.document.rest = document.rest
  merged : result.report.merged = copies.map Copy.merged
  read : ∀ copy ∈ copies, copy.IsRead document.layout fetcher
  outside : ∀ copy ∈ copies, copy.target.location ≠ result.cache.root
  named : ∀ copy ∈ copies, result.cache.localName? copy.target.key = some copy.name
  names : ∀ {key name}, result.cache.localName? key = some name →
    name ∈ Entries.keys result.document.definitions
  definitions : result.document.definitions =
    (document.definitions.map fun entry =>
      (entry.1, entry.2.mapRefs (RefNode.rewrite document.layout result.cache .root))) ++
    copies.map fun copy => (copy.name, copy.source.mapRefs
      (RefNode.rewrite document.layout result.cache (.external copy.target.location)))

theorem not_depthReported {setting : Setting} {scope : Scope} {q : Pass} {merged : List Merged}
    {fetches : Nat} (h : Report.NothingCut ⟨q.warnings, merged, fetches⟩) :
    ¬ DepthReported setting scope q :=
  fun reported => h _ reported _ rfl

theorem Copy.Faithful.isRead {setting : Setting} {copy : Copy} {q : Pass}
    (h : copy.Faithful setting q) (sound : q.cache.Sound setting.layout setting.fetcher) :
    copy.IsRead setting.layout setting.fetcher := by
  refine ⟨h.located, ?_⟩
  obtain ⟨outcome, natural, found, read⟩ := h.read
  obtain ⟨turn, location, isLocation, same, fetched⟩ := sound.documents found
  obtain rfl := isLocation.eq_of_text h.located.location same
  obtain ⟨value, part, document, selected, -, source⟩ := Target.eq_ofJson_of_fragmentOf read
  exact ⟨turn, value, part, fetched.symm.trans document, selected, source⟩

/-- The steps of a pass that cuts nothing off amount to a rewriting. -/
theorem isRewriting_of_merges {fetcher : Fetcher} {options : Options} {document : Document}
    {root : Url} {q : Pass} {copies : List Copy} {done : Definitions}
    (sound : q.cache.Sound document.layout fetcher)
    (step : Merges ⟨document.layout, fetcher, options⟩ copies
      (Pass.start document.definitions (Cache.empty root)) q)
    (definitions : q.definitions = done ++ copies.map Copy.entry)
    (related : List.Forall₂ (Redefined ⟨document.layout, fetcher, options⟩ q)
      document.definitions done)
    (whole : Report.NothingCut ⟨q.warnings, copies.map Copy.merged, q.cache.fetches⟩) :
    Resolved.IsRewriting fetcher document copies
      ⟨{ document with definitions := done ++ copies.map Copy.entry },
        ⟨q.warnings, copies.map Copy.merged, q.cache.fetches⟩, q.cache⟩ := by
  have known {scope : Scope} (r r' : RefNode)
      (followed : Followed ⟨document.layout, fetcher, options⟩ scope r r' q) :
      r' = r.rewrite document.layout q.cache scope := followed.knows q.cache sound (.refl _)
  have kept : done = document.definitions.map fun entry =>
      (entry.1, entry.2.mapRefs (RefNode.rewrite document.layout q.cache .root)) :=
    eq_map_of_forall₂ (fun entry entry' h =>
      Prod.ext h.1 (h.2.eq_mapRefs known (not_depthReported whole))) related
  have copied : copies.map Copy.entry = copies.map fun copy => (copy.name, copy.source.mapRefs
      (RefNode.rewrite document.layout q.cache (.external copy.target.location))) :=
    List.map_congr_left fun copy member => Prod.ext rfl
      ((step.faithful copy member).related.eq_mapRefs known (not_depthReported whole))
  exact {
    layout := rfl
    rest := rfl
    merged := rfl
    read := fun copy member => (step.faithful copy member).isRead sound
    outside := fun copy member => (step.faithful copy member).outside
    named := step.named
    names := fun named => definitions ▸ step.mem_keys named
    definitions := by rw [kept, copied] }

theorem Document.Bundled.isRewriting {fetcher : Fetcher} {options : Options} {document : Document}
    {root : Url} {q : Pass} {copies : List Copy} {done : Definitions}
    (h : document.Bundled fetcher options root q copies done)
    (whole : Report.NothingCut ⟨q.warnings, q.merged, q.cache.fetches⟩) :
    Resolved.IsRewriting fetcher document copies
      ⟨{ document with definitions := q.definitions },
        ⟨q.warnings, q.merged, q.cache.fetches⟩, q.cache⟩ := by
  have merged := h.merges.merged
  rw [Pass.start, List.nil_append] at merged
  rw [merged] at whole ⊢
  rw [h.definitions]
  exact isRewriting_of_merges h.sound h.merges h.definitions h.related whole

/-- **Faithful copy.** One map of keys to names, that of the final cache, explains every definition:
those of the document, rewritten at the location of the root, and those merged, rewritten at the
location that they were read from. -/
theorem resolve_faithful (fetcher : Fetcher) (options : Options) (document : Document) {root : Url}
    (h : options.rootUrl = .ok root) :
    ∃ result, document.resolve fetcher options = .ok result ∧ result.cache.root = root ∧
      (result.report.NothingCut → ∃ copies, result.IsRewriting fetcher document copies) := by
  obtain ⟨q, copies, done, resolved, sound, step, definitions, related⟩ :=
    document.resolve_grows fetcher options h
  exact ⟨_, resolved, step.cache.root,
    fun whole => ⟨copies, isRewriting_of_merges sound step definitions related whole⟩⟩

/-! ## A bundle of two documents -/

namespace Sample

/-- A document with one definition, which stands in another document. -/
def document : Document :=
  ⟨.swagger2, [("Start", .ref ⟨"pets.yaml#/definitions/Pet", .relativeFile, []⟩)],
    [("definitions", .null)]⟩

/-- The other document. Its two definitions refer to each other. -/
def pets : Bytes :=
  ("definitions:\n" ++
    "  Pet: \x7bproperties: \x7btag: \x7b$ref: '#/definitions/Tag'\x7d\x7d\x7d\n" ++
    "  Tag: \x7ballOf: [\x7b$ref: '#/definitions/Pet'\x7d]\x7d\n").toUTF8.toList

/-- It is the only one that can be fetched. -/
def fetcher : Fetcher :=
  .inMemory [("file:///pets.yaml", pets)]

/-- The location of the root document if nothing is said about it. -/
def root : Url :=
  ⟨"file", some ⟨"", "", none⟩, .rooted ["swagger.yaml"], none, none⟩

/-- The other document is merged with its cycle, and nothing is reported. -/
theorem exists_result : ∃ result, document.resolve fetcher .default = .ok result ∧
    result.report = ⟨[], [⟨"file:///pets.yaml#/definitions/Tag", "Tag"⟩,
      ⟨"file:///pets.yaml#/definitions/Pet", "Pet"⟩], 1⟩ := by
  have run : (document.resolve fetcher .default).toOption.map (·.report) =
      some ⟨[], [⟨"file:///pets.yaml#/definitions/Tag", "Tag"⟩,
        ⟨"file:///pets.yaml#/definitions/Pet", "Pet"⟩], 1⟩ := by
    decide +kernel
  obtain ⟨result, resolved, report⟩ := Option.map_eq_some_iff.1 run
  exact ⟨result, eq_ok_of_toOption resolved, report⟩

end Sample

/-- Two definitions that refer to each other are copied as such. -/
theorem resolve_faithful_sample : Options.default.rootUrl = .ok Sample.root ∧
    ∃ result copies, Sample.document.resolve Sample.fetcher .default = .ok result ∧
      result.report.NothingCut ∧ copies.length = 2 ∧
      result.IsRewriting Sample.fetcher Sample.document copies := by
  have known : Options.default.rootUrl = .ok Sample.root := rfl
  obtain ⟨result, resolved, report⟩ := Sample.exists_result
  obtain ⟨result', resolved', -, faithful⟩ :=
    resolve_faithful Sample.fetcher .default Sample.document known
  obtain rfl : result = result' := Except.ok.inj (resolved.symm.trans resolved')
  have whole : result.report.NothingCut := by
    rw [report]
    simp [Report.NothingCut]
  obtain ⟨copies, rewriting⟩ := faithful whole
  refine ⟨known, result, copies, resolved, whole, ?_, rewriting⟩
  have merged := congrArg List.length rewriting.merged
  rw [report, List.length_map] at merged
  exact merged.symm

end SchemaBundle
