import SchemaBundle.Proofs.Resolve.Capture
import SchemaBundle.Proofs.Resolve.Settled

/-!
# References that can be resolved are

`Target.IsWritten` says, without the code that splits and joins references, how a reference to a
target is written in a document. A target that can be read is reached through every such reference,
with two provisos: it needs a name for the registry, and a reference without a file part is joined
with the location of its document, which therefore has to be one that can be a base
(`Target.locate_of_isWritten`).

That nothing else can go wrong is seen from the account of the pass, which lists for each reference
what is wrong with it (`resolve_complete`).
-/

namespace SchemaBundle

open Text

/-! ## How references are written -/

namespace Target

/-- The document that the part of a reference before the hash names: the one that the reference is
written in, if there is no such part. -/
def document? (base : Url) (file : String) : Option Url :=
  if file = "" then some base else (Url.join base file).toOption.map Url.withoutFragment

/-- A reference that is written in the document at `base` leads to a target: it names the document,
and the pointer behind the hash, if one is there, is that of the target. -/
inductive IsWritten (base : Url) (t : Target) : String → Prop
  | noHash {file : String} (plain : '#' ∉ file.toList)
    (document : document? base file = some t.location) (whole : t.fragment = none) :
    IsWritten base t file
  | noPointer {file ending : String} (plain : '#' ∉ file.toList)
    (document : document? base file = some t.location) (ends : ending = "" ∨ ending = "/")
    (whole : t.fragment = none) :
    IsWritten base t (file ++ "#" ++ ending)
  | pointer {file pointer : String} (plain : '#' ∉ file.toList)
    (document : document? base file = some t.location) (isPointer : IsPointer pointer)
    (part : t.fragment = some pointer) :
    IsWritten base t (file ++ "#" ++ pointer)

/-- A reference with a file part. -/
def NamesDocument (reference : String) : Prop :=
  ∃ c, reference.toList.head? = some c ∧ c ≠ '#'

theorem namesDocument_file {file ending : String} (h : NamesDocument (file ++ "#" ++ ending)) :
    file ≠ "" := by
  rintro rfl
  obtain ⟨c, first, ne⟩ := h
  simp only [String.empty_append, String.toList_append] at first
  exact ne (Option.some.inj first).symm

/-- The document that is named is the one that the joined URL locates. -/
theorem resolve_of_document? {base location : Url} {file : String} (h : base.IsLocation)
    (document : document? base file = some location) (canBase : file = "" → base.isOpaque = false) :
    (Url.resolve (some base) file.toList).map Url.withoutFragment = .ok location := by
  unfold document? at document
  split at document
  · rename_i empty
    subst empty
    cases document
    have same : ({ base with fragment := none } : Url) = base := by rw [← h.whole]
    rw [String.toList_empty, Url.resolve_nil (canBase rfl), same]
    exact congrArg Except.ok (Url.withoutFragment_of_rooted (canBase rfl) h.whole)
  · rw [Url.join] at document
    cases joined : Url.resolve (some base) file.toList with
    | error e => simp [joined, Except.toOption] at document
    | ok url =>
      simp only [joined, Except.toOption, Option.map_some, Option.some.injEq] at document
      exact congrArg Except.ok document

/-- A reference with a hash and nothing to point at behind it. -/
theorem locate_noPointer {file ending : String} (noHash : '#' ∉ file.toList)
    (h : ending = "" ∨ ending = "/") (base : Url) :
    locate (file ++ "#" ++ ending) base =
      ((Url.resolve (some base) file.toList).map fun location =>
        (⟨location.withoutFragment, none⟩ : Target)).mapError fun e =>
          .malformedReference (file ++ "#" ++ ending) (.notAUrl e) := by
  have parts : splitFirst? '#' (file ++ "#" ++ ending).toList
      = some (file.toList, ending.toList) := by
    rw [← splitFirst?_append noHash]
    simp
  have whole : pointer? (file ++ "#" ++ ending) (some ending.toList) = .ok none := by
    rcases h with rfl | rfl <;> rfl
  unfold locate
  rw [parts]
  dsimp only
  rw [whole]
  cases Url.resolve (some base) file.toList <;> rfl

theorem ok_of_joined {joined : Except UrlError Url} {location : Url}
    (h : joined.map Url.withoutFragment = .ok location) (fragment : Option String)
    (reference : String) :
    ((joined.map fun url => (⟨url.withoutFragment, fragment⟩ : Target)).mapError fun e =>
      ResolveError.malformedReference reference (.notAUrl e)) = .ok ⟨location, fragment⟩ := by
  cases joined with
  | error e => cases h
  | ok url =>
    cases h
    rfl

/-- **A reference that is written for a target is located at it.** -/
theorem locate_of_isWritten {base : Url} {t : Target} {reference : String} (h : base.IsLocation)
    (written : t.IsWritten base reference)
    (canBase : base.isOpaque = false ∨ NamesDocument reference) :
    locate reference base = .ok t := by
  obtain ⟨location, fragment⟩ := t
  cases written with
  | noHash plain document whole =>
    obtain rfl : fragment = none := whole
    have joined := resolve_of_document? h document fun empty => by
      refine canBase.resolve_right ?_
      rintro ⟨c, first, -⟩
      simp [empty] at first
    rw [locate_whole plain]
    exact ok_of_joined joined none _
  | noPointer plain document ends whole =>
    obtain rfl : fragment = none := whole
    have joined := resolve_of_document? h document fun empty =>
      canBase.resolve_right fun named => namesDocument_file named empty
    rw [locate_noPointer plain ends]
    exact ok_of_joined joined none _
  | @pointer file pointer plain document isPointer part =>
    obtain rfl : fragment = some pointer := part
    have joined := resolve_of_document? h document fun empty =>
      canBase.resolve_right fun named => namesDocument_file named empty
    rw [locate_pointer plain isPointer]
    exact ok_of_joined joined (some pointer) _

theorem fragmentOf_ok {layout : Layout} {t : Target} {value part : Json} {natural : String}
    (selected : t.select value = .ok part) (named : t.definitionName? = some natural) :
    t.fragmentOf layout (.ok value) = .ok (Node.ofJson layout part, natural) := by
  simp [fragmentOf, selected, named, bind, Except.bind, pure, Except.pure]

end Target

/-! ## References of a bundle -/

/-- A reference to a target that can be read has become the local reference to a definition of the
bundle, and nothing is wrong with it. `P` restricts what is said to some references in documents at
some locations, and to some targets. -/
def Resolved.Completes (fetcher : Fetcher) (document : Document) (copies : List Copy)
    (P : Url → RefNode → Target → Prop) (result : Resolved) : Prop :=
  ∀ source ∈ bundleSources document copies, source.2.AllRefs fun r => ∀ t value part,
    r.Leaves source.1 → t.IsWritten (source.1.base result.cache.root) r.reference →
    t.location ≠ result.cache.root → Cache.fetchDocument fetcher 0 t.location = .ok value →
    t.select value = .ok part → P (source.1.base result.cache.root) r t →
    r.fault? document.layout result.cache source.1 = none ∧
      ∃ name ∈ Entries.keys result.document.definitions,
        r.rewrite document.layout result.cache source.1
          = r.localized (document.layout.localRef name)

/-- What can be read is no fault. -/
theorem RefNode.fault?_of_readable {layout : Layout} {fetcher : Fetcher} {c : Cache}
    (sound : c.Sound layout fetcher) (isPure : fetcher.IsPure) {scope : Scope} {r : RefNode}
    {t : Target} {value part : Json} {natural : String}
    (located : Target.locate r.reference (scope.base c.root) = .ok t) (isLocated : t.IsLocated)
    (outside : t.location ≠ c.root)
    (fetched : Cache.fetchDocument fetcher 0 t.location = .ok value)
    (selected : t.select value = .ok part) (named : t.definitionName? = some natural) :
    r.fault? layout c scope = none := by
  cases fault : r.fault? layout c scope with
  | none => rfl
  | some e =>
    cases (fails_of_fault? fault).2 with
    | malformed located' => cases located.symm.trans located'
    | wholeRoot located' inRoot =>
      obtain rfl := Except.ok.inj (located.symm.trans located')
      exact absurd inRoot outside
    | unreadable located' _ found failed =>
      obtain rfl := Except.ok.inj (located.symm.trans located')
      rw [sound.fetched isPure isLocated.location found 0, fetched,
        Target.fragmentOf_ok selected named] at failed
      cases failed

/-- If nothing was cut, every reference of a schema was within the room. -/
theorem mem_stops_of_related {setting : Setting} {scope : Scope} {q : Pass} {room : Nat}
    {source result : Node}
    (h : Node.RelWithin (Followed setting scope · · q) (DepthReported setting scope q) room source
      result) (whole : ¬ DepthReported setting scope q) {place : List PlaceStep}
    {r : RefNode} (found : source.refAt? place = some r) :
    .reference scope r ∈ source.stops scope room := by
  obtain ⟨r', -, at'⟩ := optionRel_left (h.refAt? place) found
  rcases at' with ⟨within, -⟩ | ⟨-, -, cut⟩
  · exact Node.mem_stops_of_refAt? found within
  · exact absurd cut whole

section Bundled

variable {fetcher : Fetcher} {options : Options} {document : Document} {root : Url} {q : Pass}
  {copies : List Copy} {done : Definitions}

/-- The documents that the sources stand in have locations. -/
theorem Document.Bundled.isLocation_base (h : document.Bundled fetcher options root q copies done)
    (isLocation : root.IsLocation) {source : Scope × Node}
    (isSource : source ∈ bundleSources document copies) :
    (source.1.base q.cache.root).IsLocation := by
  rcases mem_bundleSources.1 isSource with ⟨entry, -, rfl⟩ | ⟨copy, isCopy, rfl⟩
  · have isRoot : q.cache.root = root := h.merges.cache.root
    rwa [isRoot]
  · exact (h.merges.faithful copy isCopy).located.location

/-- If nothing was cut, the references of the sources are stops. -/
theorem Document.Bundled.mem_allStops (h : document.Bundled fetcher options root q copies done)
    (whole : ∀ scope, ¬ DepthReported (document.setting fetcher options) scope q)
    {source : Scope × Node} (isSource : source ∈ bundleSources document copies) :
    source.2.AllRefs fun r => .reference source.1 r ∈ allStops
      (definitionStops (document.setting fetcher options) document.definitions) copies := by
  intro place r found
  rcases mem_bundleSources.1 isSource with ⟨entry, isEntry, rfl⟩ | ⟨copy, isCopy, rfl⟩
  · obtain ⟨entry', -, related⟩ := forall₂_left h.related isEntry
    exact List.mem_append_left _ (List.mem_flatMap.2
      ⟨entry, isEntry, mem_stops_of_related related.2 (whole _) found⟩)
  · exact List.mem_append_right _ (List.mem_flatMap.2
      ⟨copy, isCopy, mem_stops_of_related (h.merges.faithful copy isCopy).related (whole _) found⟩)

/-- What is wrong with a reference among the stops is among the warnings. -/
theorem Document.Bundled.reported (h : document.Bundled fetcher options root q copies done)
    {scope : Scope} {r : RefNode} (isStop : .reference scope r ∈ allStops
      (definitionStops (document.setting fetcher options) document.definitions) copies)
    {e : ResolveError} (fault : r.fault? document.layout q.cache scope = some e) :
    Warning.unresolved r.reference e ∈ q.warnings := by
  have complaint : (Stop.reference scope r).complaint? (document.setting fetcher options) q.cache
      = some (.unresolved r.reference e) :=
    congrArg (Option.map (Warning.unresolved r.reference)) fault
  have all := h.ledger.complaints q.cache h.sound (.refl _)
  have member : Warning.unresolved r.reference e ∈ q.complaints := by
    rw [all.mem_iff, List.mem_append]
    exact .inr (List.mem_filterMap.2 ⟨_, isStop, complaint⟩)
  exact (List.mem_filter.1 member).1

/-- The definitions of the bundle were made from the sources, one from each. -/
theorem Document.Bundled.forall₂_sources (h : document.Bundled fetcher options root q copies done) :
    List.Forall₂ (fun source entry => ∃ room,
      Node.RelWithin (Followed (document.setting fetcher options) source.1 · · q)
        (DepthReported (document.setting fetcher options) source.1 q) room source.2 entry.2)
      (bundleSources document copies) q.definitions := by
  rw [h.definitions, bundleSources]
  refine List.rel_append ?_ ?_
  · rw [List.forall₂_map_left_iff]
    exact h.related.imp fun before entry redefined => ⟨_, redefined.2⟩
  · rw [List.forall₂_map_left_iff, List.forall₂_map_right_iff, List.forall₂_same]
    exact fun copy isCopy => ⟨_, (h.merges.faithful copy isCopy).related⟩

/-- Every definition of the bundle was made from a source. -/
theorem Document.Bundled.exists_source (h : document.Bundled fetcher options root q copies done)
    {entry : String × Node} (member : entry ∈ q.definitions) :
    ∃ source ∈ bundleSources document copies, ∃ room,
      Node.RelWithin (Followed (document.setting fetcher options) source.1 · · q)
        (DepthReported (document.setting fetcher options) source.1 q) room source.2 entry.2 :=
  forall₂_right h.forall₂_sources member

end Bundled

/-- **Completeness of resolution.** The complaints of a report that has nothing about depth are
those about the references that are met, each for what is wrong with it. Nothing is wrong with a
reference to a target that can be read and has a name, if it names a document or stands in one that
can be a base: it has become the local reference to a definition of the bundle. -/
theorem resolve_complete {fetcher : Fetcher} (isPure : fetcher.IsPure) {options : Options}
    {document : Document} {result : Resolved}
    (resolved : document.resolve fetcher options = .ok result) (whole : result.report.NothingCut) :
    ∃ copies, result.IsRewriting fetcher document copies ∧
      (result.report.warnings.filter Warning.isComplaint).Perm
        ((allStops (definitionStops (document.setting fetcher options) document.definitions)
            copies).filterMap
          (Stop.complaint? (document.setting fetcher options) result.cache)) ∧
      (∀ source ∈ bundleSources document copies, source.2.AllRefs fun r =>
        .reference source.1 r ∈ allStops
          (definitionStops (document.setting fetcher options) document.definitions) copies) ∧
      result.Completes fetcher document copies fun base r t =>
        t.definitionName?.isSome ∧ (base.isOpaque = false ∨ Target.NamesDocument r.reference) := by
  obtain ⟨root, known⟩ := Document.exists_rootUrl_of_resolve fetcher options document resolved
  have isLocation := Options.isLocation_of_rootUrl known
  obtain ⟨copies, done, bundled⟩ := document.lastPass_bundled fetcher options isLocation
  rw [Document.resolve_of_rootUrl fetcher options document known, Except.ok.injEq] at resolved
  subst resolved
  generalize document.lastPass fetcher options root = q at *
  have uncut (scope : Scope) : ¬ DepthReported (document.setting fetcher options) scope q :=
    not_depthReported whole
  have rewriting := bundled.isRewriting whole
  refine ⟨copies, rewriting, ?_, fun source => bundled.mem_allStops uncut, ?_⟩
  · exact bundled.ledger.complaints q.cache bundled.sound (.refl _)
  · intro source isSource place r found t value part leaves written outside fetched selected
    rintro ⟨named, canBase⟩
    obtain ⟨natural, named⟩ := Option.isSome_iff_exists.1 named
    have base := bundled.isLocation_base isLocation isSource
    have located := Target.locate_of_isWritten base written canBase
    have isLocated := Target.isLocated_of_locate base.wellFormed located
    have fault := RefNode.fault?_of_readable bundled.sound isPure located isLocated outside fetched
      selected named
    refine ⟨fault, ?_⟩
    have decided : r.Decided document.layout q.cache source.1 :=
      bundled.ledger.decided _ (bundled.mem_allStops uncut isSource place r found)
    have reaches : r.Reaches source.1 q.cache := by
      refine (decided leaves).resolve_right ?_
      rintro ⟨e, failed⟩
      cases fault.symm.trans failed
    cases reaches.destination leaves with
    | root located' inRoot =>
      obtain rfl := Except.ok.inj (located.symm.trans located')
      exact absurd inRoot outside
    | @named u name located' _ isNamed becomes =>
      exact ⟨name, rewriting.names isNamed, becomes⟩

/-- Nothing is wrong with the references between the two documents of the sample. -/
theorem resolve_complete_sample : Sample.fetcher.IsPure ∧
    ∃ result copies, Sample.document.resolve Sample.fetcher .default = .ok result ∧
      result.report.NothingCut ∧ result.IsRewriting Sample.fetcher Sample.document copies ∧
      result.Completes Sample.fetcher Sample.document copies fun base r t =>
        t.definitionName?.isSome ∧
          (base.isOpaque = false ∨ Target.NamesDocument r.reference) := by
  have isPure : Sample.fetcher.IsPure := Fetcher.isPure_ofFunction _
  obtain ⟨result, resolved, report⟩ := Sample.exists_result
  have whole : result.report.NothingCut := by
    rw [report]
    simp [Report.NothingCut]
  obtain ⟨copies, rewriting, -, -, completes⟩ := resolve_complete isPure resolved whole
  exact ⟨isPure, result, copies, resolved, whole, rewriting, completes⟩

/-! ## What the provisos are for -/

namespace Sample

/-- A document that refers to the whole of another one, whose location ends with a slash. -/
def unnamed : Document :=
  ⟨.swagger2, [("Start", .ref ⟨"https://example.com/api/", .url, []⟩)], [("definitions", .null)]⟩

/-- A document that refers to one with an opaque location. -/
def unbased : Document :=
  ⟨.swagger2, [("Start", .ref ⟨"urn:example:common#/definitions/A", .relativeFile, []⟩)],
    [("definitions", .null)]⟩

/-- The location that ends with a slash. -/
def directory : Url :=
  ⟨"https", some ⟨"", "example.com", none⟩, .rooted ["api", ""], none, none⟩

/-- The opaque location. -/
def common : Url :=
  ⟨"urn", none, .plain "example:common", none, none⟩

/-- The two other documents. The second refers from one of its definitions to another. -/
def served : Fetcher :=
  .inMemory [("https://example.com/api/", ("type: string\n").toUTF8.toList),
    ("urn:example:common", ("definitions:\n" ++
      "  A: \x7bitems: \x7b$ref: '#/definitions/B'\x7d\x7d\n" ++
      "  B: \x7btype: string\x7d\n").toUTF8.toList)]

end Sample

theorem Report.nothingCut_of_kinds {report : Report} {kinds : List WarningKind}
    (h : report.warnings.map Warning.kind = kinds) (whole : ∀ depth, .depthExceeded depth ∉ kinds) :
    report.NothingCut := by
  intro warning reported depth isDepth
  refine whole depth ?_
  rw [← h, ← isDepth]
  exact List.mem_map_of_mem reported

/-- The whole of a document whose location ends with a slash has no name. -/
theorem Sample.incomplete_unnamed :
    ∃ result, Sample.unnamed.resolve Sample.served .default = .ok result ∧
      result.report.NothingCut ∧ ∀ copies, result.IsRewriting Sample.served Sample.unnamed copies →
        ¬ result.Completes Sample.served Sample.unnamed copies fun _ _ _ => True := by
  have run : (Sample.unnamed.resolve Sample.served .default).toOption.map (fun result =>
      (result.report.warnings.map Warning.kind, result.cache.root,
        (RefNode.rewrite .swagger2 result.cache .root
          ⟨"https://example.com/api/", .url, []⟩).format))
      = some ([.malformedReference], Sample.root, .url) := by
    decide +kernel
  obtain ⟨result, resolved, facts⟩ := Option.map_eq_some_iff.1 run
  simp only [Prod.mk.injEq] at facts
  obtain ⟨kinds, isRoot, format⟩ := facts
  refine ⟨result, eq_ok_of_toOption resolved, Report.nothingCut_of_kinds kinds (by simp), ?_⟩
  intro copies rewriting completes
  obtain ⟨value, fetched⟩ : ∃ value,
      (Cache.fetchDocument Sample.served 0 Sample.directory).toOption = some value :=
    Option.isSome_iff_exists.1 (by decide +kernel)
  have written : Target.IsWritten Sample.root ⟨Sample.directory, none⟩
      "https://example.com/api/" := .noHash (by decide) (by decide +kernel) rfl
  have outside : Sample.directory ≠ Sample.root := by decide
  rw [← isRoot] at written outside
  obtain ⟨-, name, -, becomes⟩ := completes _ (List.mem_append_left _ (List.mem_map_of_mem
    (List.mem_singleton_self _))) [] _ rfl ⟨Sample.directory, none⟩ value value (.inl rfl) written
      outside (eq_ok_of_toOption fetched) rfl trivial
  rw [show Sample.unnamed.layout = .swagger2 from rfl] at becomes
  rw [becomes] at format
  cases format

/-- The references of a copy's source are those of what its target selects. -/
theorem Copy.IsRead.refAt?_of_textAt? {layout : Layout} {fetcher : Fetcher} {copy : Copy}
    (read : copy.IsRead layout fetcher) (isPure : fetcher.IsPure) {place : List PlaceStep}
    {text : String} (h : copy.target.textAt? layout fetcher place = some text) :
    ∃ r, copy.source.refAt? place = some r ∧ r.reference = text := by
  obtain ⟨turn, value, part, fetched, selected, source⟩ := read.read
  rw [Cache.fetchDocument_of_isPure isPure turn 0] at fetched
  simpa [Target.textAt?, fetched, selected, source, Except.toOption] using h

/-- A reference without a file part is joined with the location of its document, which is opaque. -/
theorem Sample.incomplete_unbased :
    ∃ result, Sample.unbased.resolve Sample.served .default = .ok result ∧
      result.report.NothingCut ∧ ∀ copies, result.IsRewriting Sample.served Sample.unbased copies →
        ¬ result.Completes Sample.served Sample.unbased copies fun _ _ _ => True := by
  have run : (Sample.unbased.resolve Sample.served .default).toOption.map (fun result =>
      (result.report.warnings.map Warning.kind, result.report.merged, result.cache.root,
        Entries.keys result.document.definitions))
      = some ([.malformedReference], [⟨"urn:example:common#/definitions/A", "A"⟩], Sample.root,
        ["Start", "A"]) := by
    decide +kernel
  obtain ⟨result, resolved, facts⟩ := Option.map_eq_some_iff.1 run
  simp only [Prod.mk.injEq] at facts
  obtain ⟨kinds, merged, isRoot, keys⟩ := facts
  refine ⟨result, eq_ok_of_toOption resolved, Report.nothingCut_of_kinds kinds (by simp), ?_⟩
  intro copies rewriting completes
  -- the copy of `A`, and the reference in it
  obtain ⟨copy, isCopy, isMerged⟩ : ∃ copy ∈ copies,
      copy.merged = ⟨"urn:example:common#/definitions/A", "A"⟩ := by
    rw [← List.mem_map, ← rewriting.merged, merged]
    exact List.mem_singleton_self _
  have read := rewriting.read copy isCopy
  have isTarget : copy.target = ⟨Sample.common, some "/definitions/A"⟩ :=
    Target.eq_of_key_text read.located
      (Sample.isLocated_other (rfl : Target.locate "urn:example:common#/definitions/A" _ = _))
      (congrArg Merged.source isMerged)
  have text : copy.target.textAt? .swagger2 Sample.served [.items] = some "#/definitions/B" := by
    rw [isTarget]
    decide +kernel
  obtain ⟨r, found, isText⟩ := read.refAt?_of_textAt? (Fetcher.isPure_ofFunction _) text
  -- the target that it is written for can be read
  have split : "#/definitions/B" = "" ++ "#" ++ "/definitions/B" := by decide
  have isPointer : Target.IsPointer "/definitions/B" := ⟨by decide, by decide, by decide⟩
  have written : Target.IsWritten Sample.common ⟨Sample.common, some "/definitions/B"⟩
      r.reference := by
    rw [isText, split]
    exact .pointer List.not_mem_nil rfl isPointer rfl
  have readable : ((Cache.fetchDocument Sample.served 0 Sample.common).toOption.bind fun value =>
      (Target.select ⟨Sample.common, some "/definitions/B"⟩ value).toOption).isSome = true := by
    decide +kernel
  obtain ⟨part, readable⟩ := Option.isSome_iff_exists.1 readable
  obtain ⟨value, fetched, selected⟩ := Option.bind_eq_some_iff.1 readable
  have isSource : (.external Sample.common, copy.source) ∈ bundleSources Sample.unbased copies :=
    mem_bundleSources.2 (.inr ⟨copy, isCopy, by rw [isTarget]⟩)
  have outside : Sample.common ≠ result.cache.root := by
    rw [isRoot]
    decide
  obtain ⟨-, name, isName, becomes⟩ := completes _ isSource [.items] r found
    ⟨Sample.common, some "/definitions/B"⟩ value part (r.leaves_external _) written outside
    (eq_ok_of_toOption fetched) (eq_ok_of_toOption selected) trivial
  -- it stays as it is, and `B` is not in the bundle
  have located : Target.locate r.reference Sample.common
      = .error (.malformedReference "#/definitions/B" (.notAUrl .relativeToOpaqueBase)) := by
    rw [isText]
    rfl
  rw [RefNode.rewrite, if_pos (r.leaves_external _)] at becomes
  simp only [Scope.base, located] at becomes
  have text : r.reference = Layout.swagger2.localRef name := congrArg RefNode.reference becomes
  rw [isText] at text
  rw [keys, List.mem_cons, List.mem_singleton] at isName
  rcases isName with rfl | rfl
  · exact absurd text (by decide)
  · exact absurd text (by decide)

/-- Without either proviso, references to targets that can be read are left over: to a target
without a name, and in a document that cannot be a base. -/
theorem resolve_incomplete :
    (∃ result, Sample.unnamed.resolve Sample.served .default = .ok result ∧
      result.report.NothingCut ∧ ∀ copies, result.IsRewriting Sample.served Sample.unnamed copies →
        ¬ result.Completes Sample.served Sample.unnamed copies fun _ _ _ => True) ∧
    ∃ result, Sample.unbased.resolve Sample.served .default = .ok result ∧
      result.report.NothingCut ∧ ∀ copies, result.IsRewriting Sample.served Sample.unbased copies →
        ¬ result.Completes Sample.served Sample.unbased copies fun _ _ _ => True :=
  ⟨Sample.incomplete_unnamed, Sample.incomplete_unbased⟩

end SchemaBundle
