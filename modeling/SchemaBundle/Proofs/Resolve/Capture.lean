import SchemaBundle.Proofs.Resolve.Faithful

/-!
# What copied references stand for

A reference of a merged fragment is read in another document than the one it was written in. Within
the room of its walk it leads to the same target all the same (`resolve_noCapture`): it was replaced
by the name of the target, by a pointer into the root document, or by the absolute form of the
target. Beyond the room it is left as it was written, and that is reported; there it may name
another definition (`resolve_captures`).
-/

namespace SchemaBundle

/-- What stands in a bundle for a target that a reference `r` of another document was located at. -/
inductive Resolved.Stands (result : Resolved) (r : RefNode) (t : Target) (r' : RefNode) : Prop
  /-- A pointer into the root document. If that can be a base, it is located at the target. -/
  | inRoot {pointer : String} (inRoot : t.location = result.cache.root)
    (inside : t.fragment = some pointer) (becomes : r' = r.localized ("#" ++ pointer))
    (reads : Target.locate r'.reference result.cache.root = .ok t
      ↔ result.cache.root.isOpaque = false)
  /-- The local reference to the definition that the target was merged as. -/
  | named {name : String} (outside : t.location ≠ result.cache.root)
    (named : result.cache.localName? t.key = some name)
    (present : name ∈ Entries.keys result.document.definitions)
    (becomes : r' = r.localized (result.document.layout.localRef name))
  /-- The absolute form of a target that could not be merged. Where the text of its location is read
  as the location, it is located at the target. -/
  | absolute (becomes : r' = { r with reference := t.absoluteReference, format := .url })
    (reported : ∃ e, Warning.unresolved r.reference e ∈ result.report.warnings)
    (reads : Target.locate r'.reference result.cache.root = .ok t
      ↔ result.cache.root.ReadsBack t.location)

section Capture

variable {setting : Setting} {q : Pass} {r r' : RefNode} {t : Target} {location : Url}

theorem RefNode.leaves_external (r : RefNode) (location : Url) : r.Leaves (.external location) :=
  .inr nofun

/-- A reference that could not be merged has the absolute form of its target. -/
theorem RefNode.unresolved_of_located (located : Target.locate r.reference location = .ok t) :
    r.unresolved (.external location)
      = { r with reference := t.absoluteReference, format := .url } := by
  simp only [unresolved, Walk.pinned, located]

/-- If nothing is reported of a reference, its target is a pointer into the root or has a name. -/
theorem Followed.reported (h : Followed setting (.external location) r r' q)
    (located : Target.locate r.reference location = .ok t)
    (nowhere : ¬ (t.location = q.cache.root ∧ t.fragment.isSome ∨
      t.location ≠ q.cache.root ∧ (q.cache.localName? t.key).isSome)) :
    ∃ e, Warning.unresolved r.reference e ∈ q.warnings := by
  refine (h.reaches (r.leaves_external location)).resolve_left ?_
  rintro ⟨u, located', there⟩
  have same : u = t := by
    rw [Scope.base, located, Except.ok.injEq] at located'
    exact located'.symm
  rw [same] at there
  exact nowhere there

/-- A reference of another document that was followed stands for its target. -/
theorem Followed.stands {document : Document} {merged : List Merged} {fetches : Nat}
    (h : Followed setting (.external location) r r' q) (isLocation : location.IsLocation)
    (sound : q.cache.Sound setting.layout setting.fetcher) (whole : q.cache.root.fragment = none)
    (layout : document.layout = setting.layout)
    (present : ∀ {key name}, q.cache.localName? key = some name →
      name ∈ Entries.keys document.definitions)
    (located : Target.locate r.reference location = .ok t) :
    Resolved.Stands ⟨document, ⟨q.warnings, merged, fetches⟩, q.cache⟩ r t r' := by
  have ht : t.IsLocated := Target.isLocated_of_locate isLocation.wellFormed located
  have becomes := h.knows q.cache sound (.refl _)
  rw [RefNode.rewrite, if_pos (r.leaves_external location)] at becomes
  simp only [Scope.base, located] at becomes
  have absolute (becomes : r' = r.unresolved (.external location))
      (nowhere : ¬ (t.location = q.cache.root ∧ t.fragment.isSome ∨
        t.location ≠ q.cache.root ∧ (q.cache.localName? t.key).isSome)) :
      Resolved.Stands ⟨document, ⟨q.warnings, merged, fetches⟩, q.cache⟩ r t r' := by
    rw [RefNode.unresolved_of_located located] at becomes
    refine .absolute becomes (h.reported located nowhere) ?_
    rw [becomes]
    exact Target.locate_absoluteReference_iff ht
  by_cases inRoot : t.location = q.cache.root
  · cases inside : t.fragment with
    | some pointer =>
      simp only [inRoot, inside, if_true] at becomes
      refine .inRoot inRoot inside becomes ?_
      have same : t = ⟨q.cache.root, some pointer⟩ := by rw [← inRoot, ← inside]
      rw [becomes, same]
      exact Target.locate_hash_iff whole (ht.pointer pointer inside)
    | none =>
      simp only [inRoot, inside, if_true] at becomes
      exact absolute becomes (by simp [inRoot, inside])
  · cases named : q.cache.localName? t.key with
    | some name =>
      simp only [inRoot, named, if_false] at becomes
      refine .named inRoot named (present named) ?_
      rw [becomes, layout]
    | none =>
      simp only [inRoot, named, if_false] at becomes
      exact absolute becomes (by simp [inRoot, named])

end Capture

/-- **No capture within the limit.** The references of a merged definition stand where those of its
source do. Each within the room of its walk stands for the target that it was located at; each
beyond the room is the one that was written, and the report says that the document is too deep. -/
theorem resolve_noCapture {fetcher : Fetcher} {options : Options} {document : Document}
    {result : Resolved} (resolved : document.resolve fetcher options = .ok result) :
    ∃ copies : List Copy, result.report.merged = copies.map Copy.merged ∧
      (∃ kept, result.document.definitions = kept ++ copies.map Copy.entry ∧
        Entries.keys kept = Entries.keys document.definitions) ∧
      ∀ copy ∈ copies, copy.IsRead document.layout fetcher ∧
        ∀ {place r t}, copy.source.refAt? place = some r →
          Target.locate r.reference copy.target.location = .ok t →
          ∃ r', copy.result.refAt? place = some r' ∧
            (levels place < copy.room ∧ result.Stands r t r' ∨
              copy.room ≤ levels place ∧ r' = r ∧
                .tooDeep copy.target.location.text options.maxDepth ∈ result.report.warnings) := by
  obtain ⟨root, q, copies, done, known, rfl, sound, step, definitions, related⟩ :=
    Document.resolve_cases resolved
  have isRoot : q.cache.root = root := step.cache.root
  have whole : q.cache.root.fragment = none := by
    rw [isRoot]
    exact (Options.isLocation_of_rootUrl known).whole
  refine ⟨copies, rfl, ⟨done, rfl, ?_⟩, fun copy member => ?_⟩
  · have keys := step.keys
    rw [definitions, Entries.keys, List.map_append, List.map_map] at keys
    exact List.append_cancel_right keys
  · have faithful := step.faithful copy member
    refine ⟨faithful.isRead sound, fun {place r t} found located => ?_⟩
    obtain ⟨r', there, at'⟩ := optionRel_left (faithful.related.refAt? place) found
    refine ⟨r', there, ?_⟩
    rcases at' with ⟨within, followed⟩ | ⟨beyond, same, reported⟩
    · refine .inl ⟨within, followed.stands faithful.located.location sound whole rfl ?_ located⟩
      intro key name named
      exact definitions ▸ step.mem_keys named
    · exact .inr ⟨beyond, same, reported⟩

/-- Both copies of the sample stand for what they are copies of: nothing was too deep. -/
theorem resolve_noCapture_sample :
    ∃ (result : Resolved) (copies : List Copy),
      Sample.document.resolve Sample.fetcher .default = .ok result ∧ copies.length = 2 ∧
      ∀ copy ∈ copies, ∀ {place r t}, copy.source.refAt? place = some r →
        Target.locate r.reference copy.target.location = .ok t →
        ∃ r', copy.result.refAt? place = some r' ∧ result.Stands r t r' := by
  obtain ⟨result, resolved, report⟩ := Sample.exists_result
  obtain ⟨copies, merged, -, stands⟩ := resolve_noCapture resolved
  rw [report] at merged
  have length := congrArg List.length merged
  rw [List.length_map] at length
  refine ⟨result, copies, resolved, length.symm, fun copy member {place r t} found located => ?_⟩
  obtain ⟨r', there, ⟨-, stands⟩ | ⟨-, -, reported⟩⟩ := (stands copy member).2 found located
  · exact ⟨r', there, stands⟩
  · rw [report] at reported
    cases reported

/-- A drive on a host is a location that is not read back: without the empty segment before it, a
drive leaves no room for a host. -/
example : ((Target.locate "file://host//C:/x.yaml" Sample.root).toOption.map (·.location.text),
    (Target.locate "file://host/C:/x.yaml" Sample.root).toOption.map (·.location.text))
      = (some "file://host/C:/x.yaml", some "file:///C:/x.yaml") := by
  decide +kernel

/-! ## Beyond the limit -/

/-- Every reference of a merged definition, at whatever depth, is the local reference recorded for
its target or is located at the target. -/
def Resolved.CaptureFree (layout : Layout) (fetcher : Fetcher) (result : Resolved) : Prop :=
  ∀ copy : Copy, copy.merged ∈ result.report.merged → copy.IsRead layout fetcher →
    Entries.find? copy.name result.document.definitions = some copy.result →
    ∀ {place r r' t}, copy.source.refAt? place = some r → copy.result.refAt? place = some r' →
      Target.locate r.reference copy.target.location = .ok t →
      (∃ name, result.cache.localName? t.key = some name ∧
        r'.reference = layout.localRef name) ∨
      Target.locate r'.reference result.cache.root = .ok t

/-- The reference at a place of what a target selects. -/
def Target.textAt? (layout : Layout) (fetcher : Fetcher) (t : Target) (place : List PlaceStep) :
    Option String :=
  (Cache.fetchDocument fetcher 0 t.location).toOption.bind fun value =>
    (t.select value).toOption.bind fun part =>
      ((Node.ofJson layout part).refAt? place).map RefNode.reference

/-- The reference at a place of a definition. -/
def Resolved.textAt? (result : Resolved) (name : String) (place : List PlaceStep) :
    Option String :=
  (Entries.find? name result.document.definitions).bind fun node =>
    (node.refAt? place).map RefNode.reference

/-- One reference that leads elsewhere is enough. -/
theorem not_captureFree {layout : Layout} {fetcher : Fetcher} {result : Resolved} {t u : Target}
    {name text text' : String} {place : List PlaceStep}
    (member : ⟨t.key.text, name⟩ ∈ result.report.merged) (isLocated : t.IsLocated)
    (source : t.textAt? layout fetcher place = some text)
    (copied : result.textAt? name place = some text')
    (located : Target.locate text t.location = .ok u)
    (unnamed : result.cache.localName? u.key = none)
    (elsewhere : Target.locate text' result.cache.root ≠ .ok u) :
    ¬ result.CaptureFree layout fetcher := by
  intro free
  simp only [Target.textAt?, Option.bind_eq_some_iff, Option.map_eq_some_iff] at source
  simp only [Resolved.textAt?, Option.bind_eq_some_iff, Option.map_eq_some_iff] at copied
  obtain ⟨value, fetched, part, selected, r, atSource, rfl⟩ := source
  obtain ⟨node, found, r', atCopy, rfl⟩ := copied
  let copy : Copy := ⟨t, name, Node.ofJson layout part, 0, node⟩
  have read : copy.IsRead layout fetcher :=
    ⟨isLocated, 0, value, part, eq_ok_of_toOption fetched, eq_ok_of_toOption selected, rfl⟩
  rcases free copy member read found atSource atCopy located with ⟨name, named, -⟩ | same
  · rw [unnamed] at named
    cases named
  · exact elsewhere same

namespace Sample

/-- A document with an unrelated definition `X` and two references to another document. -/
def crossing : Document :=
  ⟨.swagger2, [("Start", .ref ⟨"file:///other.yaml#/definitions/P", .url, []⟩),
    ("Back", .ref ⟨"file:///other.yaml#/definitions/Q", .url, []⟩), ("X", .plain (.bool true))],
    [("definitions", .null)]⟩

/-- The other document refers to its own `X`, two levels deep, and to the `X` of a document that is
named by an opaque URL. -/
def crossed : Fetcher :=
  .inMemory [("file:///other.yaml",
    ("definitions:\n" ++
      " P: \x7bitems: \x7bitems: \x7b$ref: '#/definitions/X'\x7d\x7d\x7d\n" ++
      " Q: \x7b$ref: 'urn:root#/definitions/X'\x7d\n" ++
      " X: 1\n").toUTF8.toList)]

/-- The location of the other document. -/
def other : Url :=
  ⟨"file", some ⟨"", "", none⟩, .rooted ["other.yaml"], none, none⟩

/-- An opaque URL. -/
def opaqueRoot : Url :=
  ⟨"urn", none, .plain "root", none, none⟩

theorem isLocated_other {reference : String} {t : Target}
    (located : Target.locate reference root = .ok t) : t.IsLocated :=
  Target.isLocated_of_locate
    (Options.isLocation_of_rootUrl (rfl : Options.default.rootUrl = .ok root)).wellFormed located

end Sample

/-- The `X` of the other document stands two levels deep in `P`, which is too deep. -/
theorem Sample.captured :
    ∃ result, Sample.crossing.resolve Sample.crossed ⟨none, 1, true⟩ = .ok result ∧
      ¬ result.CaptureFree .swagger2 Sample.crossed := by
  have run : (Sample.crossing.resolve Sample.crossed ⟨none, 1, true⟩).toOption.map (fun result =>
      (result.report.merged, result.textAt? "P" [.items, .items],
        result.cache.localName? ⟨"file:///other.yaml", "/definitions/X"⟩, result.cache.root))
      = some ([⟨"file:///other.yaml#/definitions/P", "P"⟩,
          ⟨"file:///other.yaml#/definitions/Q", "Q"⟩],
        some "#/definitions/X", none, Sample.root) := by
    decide +kernel
  have source : Target.textAt? .swagger2 Sample.crossed ⟨Sample.other, some "/definitions/P"⟩
      [.items, .items] = some "#/definitions/X" := by
    decide +kernel
  obtain ⟨result, resolved, facts⟩ := Option.map_eq_some_iff.1 run
  simp only [Prod.mk.injEq] at facts
  obtain ⟨merged, copied, unnamed, isRoot⟩ := facts
  have located : Target.locate "#/definitions/X" Sample.other
      = .ok ⟨Sample.other, some "/definitions/X"⟩ := rfl
  have inRoot : Target.locate "#/definitions/X" Sample.root
      = .ok ⟨Sample.root, some "/definitions/X"⟩ := rfl
  refine ⟨result, eq_ok_of_toOption resolved, ?_⟩
  refine not_captureFree ?_ ?_ source copied located unnamed ?_
  · rw [merged]
    decide
  · exact Sample.isLocated_other (rfl : Target.locate "other.yaml#/definitions/P" _ = _)
  · rw [isRoot, inRoot]
    decide

/-- The `X` of the root document becomes a local pointer, which an opaque URL is no base for. -/
theorem Sample.unlocated :
    ∃ result, Sample.crossing.resolve Sample.crossed ⟨some "urn:root", 64, true⟩ = .ok result ∧
      ¬ result.CaptureFree .swagger2 Sample.crossed := by
  have run : (Sample.crossing.resolve Sample.crossed ⟨some "urn:root", 64, true⟩).toOption.map
      (fun result => (result.report.merged, result.textAt? "Q" [],
        result.cache.localName? ⟨"urn:root", "/definitions/X"⟩, result.cache.root))
      = some ([⟨"file:///other.yaml#/definitions/X", "X_1"⟩,
          ⟨"file:///other.yaml#/definitions/P", "P"⟩,
          ⟨"file:///other.yaml#/definitions/Q", "Q"⟩],
        some "#/definitions/X", none, Sample.opaqueRoot) := by
    decide +kernel
  have source : Target.textAt? .swagger2 Sample.crossed ⟨Sample.other, some "/definitions/Q"⟩ []
      = some "urn:root#/definitions/X" := by
    decide +kernel
  obtain ⟨result, resolved, facts⟩ := Option.map_eq_some_iff.1 run
  simp only [Prod.mk.injEq] at facts
  obtain ⟨merged, copied, unnamed, isRoot⟩ := facts
  have located : Target.locate "urn:root#/definitions/X" Sample.other
      = .ok ⟨Sample.opaqueRoot, some "/definitions/X"⟩ := rfl
  have nowhere : Target.locate "#/definitions/X" Sample.opaqueRoot
      = .error (.malformedReference "#/definitions/X" (.notAUrl .relativeToOpaqueBase)) := rfl
  refine ⟨result, eq_ok_of_toOption resolved, ?_⟩
  refine not_captureFree ?_ ?_ source copied located unnamed ?_
  · rw [merged]
    decide
  · exact Sample.isLocated_other (rfl : Target.locate "other.yaml#/definitions/Q" _ = _)
  · rw [isRoot, nowhere]
    nofun

/-- Beyond the limit the copy of a reference to the `X` of another document names the `X` of the
root document. Even within the limit, a pointer into a root document that cannot be a base is not
located at anything. -/
theorem resolve_captures :
    (∃ result, Sample.crossing.resolve Sample.crossed ⟨none, 1, true⟩ = .ok result ∧
      ¬ result.CaptureFree .swagger2 Sample.crossed) ∧
    ∃ result, Sample.crossing.resolve Sample.crossed ⟨some "urn:root", 64, true⟩ = .ok result ∧
      ¬ result.CaptureFree .swagger2 Sample.crossed :=
  ⟨Sample.captured, Sample.unlocated⟩

end SchemaBundle
