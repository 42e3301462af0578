import SchemaBundle.Proofs.Resolve.Faithful
import SchemaBundle.Proofs.Schema.Normal

/-!
# A pass without warnings leaves nothing behind

Each way of leaving a reference as it is, or of not looking at it, reports a warning. So after a
pass that reports none, every reference of the bundle points into the bundle, and those that were
merged name definitions that are there (`resolve_settled`). This is what a strict run relies on.
-/

namespace SchemaBundle

/-- A reference into the document that it stands in. -/
def RefNode.IsLocal (r : RefNode) : Prop :=
  r.format = .internal ∧ r.reference.toList.head? = some '#'

/-- Every reference of the registry is local. -/
def Document.AllLocal (document : Document) : Prop :=
  ∀ entry ∈ document.definitions, entry.2.AllRefs RefNode.IsLocal

/-- What the definitions of a bundle were made from, with the scopes that their references were
written in. -/
def bundleSources (document : Document) (copies : List Copy) : List (Scope × Node) :=
  document.definitions.map (fun entry => (.root, entry.2)) ++
    copies.map fun copy => (.external copy.target.location, copy.source)

/-- A source is a definition of the document or that of a copy. -/
theorem mem_bundleSources {document : Document} {copies : List Copy} {source : Scope × Node} :
    source ∈ bundleSources document copies ↔
      (∃ entry ∈ document.definitions, (.root, entry.2) = source) ∨
        ∃ copy ∈ copies, (.external copy.target.location, copy.source) = source := by
  rw [bundleSources, List.mem_append, List.mem_map, List.mem_map]

section Settled

variable {setting : Setting} {scope : Scope} {q : Pass}

theorem RefNode.Destination.isLocal {layout : Layout} {r : RefNode} {c : Cache}
    (h : r.Destination layout scope c) : (r.rewrite layout c scope).IsLocal := by
  cases h with
  | root _ _ _ becomes =>
    rw [becomes]
    exact ⟨rfl, by simp [localized]⟩
  | named _ _ _ becomes =>
    rw [becomes]
    exact ⟨rfl, layout.head?_localRef _⟩

/-- Without warnings, a reference that was followed leads somewhere. -/
theorem Followed.destination {r r' : RefNode} (h : Followed setting scope r r' q)
    (silent : q.warnings = []) (leaves : r.Leaves scope) :
    r.Destination setting.layout scope q.cache := by
  rcases h.reaches leaves with reaches | ⟨e, reported⟩
  · exact reaches.destination leaves
  · rw [silent] at reported
    cases reported

theorem Followed.isLocal {r r' : RefNode} (h : Followed setting scope r r' q)
    (silent : q.warnings = []) (sound : q.cache.Sound setting.layout setting.fetcher)
    (normal : scope = .root → r.IsNormal) : r'.IsLocal := by
  rw [h.knows q.cache sound (.refl _)]
  by_cases leaves : r.Leaves scope
  · exact (h.destination silent leaves).isLocal
  · have stays := RefNode.not_leaves_iff.1 leaves
    have internal : r.format = .internal := by
      cases format : r.format <;> simp [format, RefFormat.isExternal] at stays ⊢
    rw [RefNode.rewrite, if_neg leaves]
    exact ⟨internal, normal stays.2 internal⟩

variable {room : Nat} {source result : Node}

/-- Without warnings, every reference of a source was followed. -/
theorem followed_of_refAt? {place : List PlaceStep} {r r' : RefNode} (silent : q.warnings = [])
    (h : RelAt (Followed setting scope · · q) (DepthReported setting scope q) room place r r') :
    Followed setting scope r r' q := by
  rcases h with ⟨-, followed⟩ | ⟨-, -, reported⟩
  · exact followed
  · rw [DepthReported, silent] at reported
    cases reported

theorem allRefs_destination (silent : q.warnings = [])
    (h : Node.RelWithin (Followed setting scope · · q) (DepthReported setting scope q) room source
      result) :
    source.AllRefs fun r => r.Leaves scope → r.Destination setting.layout scope q.cache := by
  intro place r found leaves
  obtain ⟨r', -, related⟩ := optionRel_left (h.refAt? place) found
  exact (followed_of_refAt? silent related).destination silent leaves

theorem allRefs_isLocal (silent : q.warnings = [])
    (sound : q.cache.Sound setting.layout setting.fetcher)
    (normal : scope = .root → source.AllRefs RefNode.IsNormal)
    (h : Node.RelWithin (Followed setting scope · · q) (DepthReported setting scope q) room source
      result) :
    result.AllRefs RefNode.IsLocal := by
  intro place r' found
  obtain ⟨r, found, related⟩ := optionRel_right (h.refAt? place) found
  exact (followed_of_refAt? silent related).isLocal silent sound
    fun isRoot => normal isRoot place r found

end Settled

/-- **No silent leftovers.** Without warnings every reference is local, and each reference of a
source that leaves its scope has become a pointer into the root document or the local reference to a
definition of the bundle. -/
theorem resolve_settled {value : Json} {document : Document} (fetcher : Fetcher)
    (options : Options) {result : Resolved} (read : Document.ofJson value = .ok document)
    (resolved : document.resolve fetcher options = .ok result)
    (silent : result.report.warnings = []) :
    result.document.AllLocal ∧ ∃ copies, result.IsRewriting fetcher document copies ∧
      ∀ source ∈ bundleSources document copies, source.2.AllRefs fun r =>
        r.Leaves source.1 → r.Destination document.layout source.1 result.cache := by
  obtain ⟨root, q, copies, done, -, rfl, sound, step, definitions, related⟩ :=
    Document.resolve_cases resolved
  have normal := Document.isNormal_of_ofJson read
  dsimp only at silent
  have whole : Report.NothingCut ⟨q.warnings, copies.map Copy.merged, q.cache.fetches⟩ := by
    intro warning reported
    rw [silent] at reported
    cases reported
  refine ⟨?_, copies, isRewriting_of_merges sound step definitions related whole, ?_⟩
  · intro entry' member
    rcases List.mem_append.1 member with kept | copied
    · obtain ⟨entry, kept, h⟩ := forall₂_right related kept
      exact allRefs_isLocal silent sound (fun _ => normal entry kept) h.2
    · obtain ⟨copy, isCopy, rfl⟩ := List.mem_map.1 copied
      exact allRefs_isLocal silent sound (by rintro ⟨⟩) (step.faithful copy isCopy).related
  · intro source member
    rcases List.mem_append.1 member with kept | copied
    · obtain ⟨entry, isEntry, rfl⟩ := List.mem_map.1 kept
      obtain ⟨entry', -, h⟩ := forall₂_left related isEntry
      exact allRefs_destination silent h.2
    · obtain ⟨copy, isCopy, rfl⟩ := List.mem_map.1 copied
      exact allRefs_destination silent (step.faithful copy isCopy).related

/-- The document of the sample as a value. -/
def Sample.value : Json :=
  .obj [("definitions", .obj [("Start", .obj [("$ref", .str "pets.yaml#/definitions/Pet")])])]

/-- The bundle of two documents has local references only. -/
theorem resolve_settled_sample : Document.ofJson Sample.value = .ok Sample.document ∧
    ∃ result, Sample.document.resolve Sample.fetcher .default = .ok result ∧
      result.report.warnings = [] ∧ result.document.AllLocal := by
  have read : Document.ofJson Sample.value = .ok Sample.document := rfl
  obtain ⟨result, resolved, report⟩ := Sample.exists_result
  have silent : result.report.warnings = [] := by rw [report]
  exact ⟨read, result, resolved, silent,
    (resolve_settled Sample.fetcher .default read resolved silent).1⟩

end SchemaBundle
