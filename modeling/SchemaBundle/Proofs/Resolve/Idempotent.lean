import SchemaBundle.Proofs.Resolve.Complete
import SchemaBundle.Proofs.Resolve.Idle

/-!
# A second pass has nothing to do

After a pass that cut nothing off and found every reference well formed, the references of the
bundle are idle: those that were resolved are local, and one that was not misses its target, which a
warning names (`Document.Bundled.isExcused`). For a reference that was copied this takes that the
text at the location of its target is read back as the location, since its absolute form is read in
the root document now.

So another pass over the bundle leaves it as it is, merges nothing, and asks again for what could
not be had (`resolve_idempotent`).
-/

namespace SchemaBundle

/-! ## Warnings about targets -/

/-- The location of the document that could not be had, or has nothing at the pointer. -/
def WarningKind.failedAt? : WarningKind → Option String
  | fetchFailed location => some location
  | parseFailed location => some location
  | fragmentNotFound location _ => some location
  | _ => none

/-- What stands behind a hash and is no pointer is malformed. -/
theorem Target.ofError_of_pointer? {reference : String} {behind : Option (List Char)}
    {e : ResolveError} (h : pointer? reference behind = .error e) :
    WarningKind.ofError e = .malformedReference := by
  unfold pointer? at h
  split at h
  · cases h
  · split at h
    · cases h
      rfl
    · split at h
      · cases h
      · split at h
        · cases h
        · cases h
          rfl

/-- A reference that cannot be located is malformed. -/
theorem Target.ofError_of_locate {reference : String} {base : Url} {e : ResolveError}
    (h : locate reference base = .error e) :
    WarningKind.ofError e = .malformedReference := by
  unfold locate at h
  dsimp only at h
  split at h
  · rename_i unread
    cases h
    exact ofError_of_pointer? unread
  · split at h
    · cases h
      rfl
    · cases h

/-- A document that cannot be had is reported with its location. -/
theorem Cache.failedAt?_of_fetchDocument {fetcher : Fetcher} {turn : Nat} {location : Url}
    {e : ResolveError} (h : fetchDocument fetcher turn location = .error e) :
    (WarningKind.ofError e).failedAt? = some location.text := by
  unfold fetchDocument at h
  split at h
  · cases h
    rfl
  · split at h
    · cases h
    · cases h
      rfl

/-- A pointer to nothing is reported with the location of its document. -/
theorem Target.failedAt?_of_select {t : Target} {value : Json} {e : ResolveError}
    (h : t.select value = .error e) :
    (WarningKind.ofError e).failedAt? = some t.location.text := by
  unfold select at h
  split at h
  · cases h
  · split at h
    · cases h
    · cases h
      rfl

/-- A target that cannot be read is reported with its location, unless it is for want of a name. -/
theorem Target.failedAt?_of_fragmentOf {layout : Layout} {fetcher : Fetcher} {turn : Nat}
    {t : Target} {e : ResolveError}
    (h : t.fragmentOf layout (Cache.fetchDocument fetcher turn t.location) = .error e)
    (formed : WarningKind.ofError e ≠ .malformedReference) :
    (WarningKind.ofError e).failedAt? = some t.location.text := by
  unfold fragmentOf at h
  cases fetched : Cache.fetchDocument fetcher turn t.location with
  | error cause =>
    rw [fetched] at h
    cases h
    exact Cache.failedAt?_of_fetchDocument fetched
  | ok value =>
    rw [fetched] at h
    cases selected : t.select value with
    | error cause =>
      simp only [selected, bind, Except.bind, Except.error.injEq] at h
      rw [← h]
      exact failedAt?_of_select selected
    | ok part =>
      cases named : t.definitionName? with
      | some name => simp [selected, named, bind, Except.bind, pure, Except.pure] at h
      | none =>
        simp only [selected, named, bind, Except.bind, throw, throwThe, MonadExceptOf.throw,
          Except.error.injEq] at h
        subst h
        exact absurd rfl formed

/-! ## What is left over -/

/-- A reference of a bundle that is idle for a reason that a warning gives. -/
def RefNode.IsExcused (layout : Layout) (fetcher : Fetcher) (root : Url) (warnings : List Warning)
    (r : RefNode) : Prop :=
  r.Leaves .root → ∃ t, r.Misses layout fetcher root t ∧
    ∃ warning ∈ warnings, warning.kind.failedAt? = some t.location.text

theorem RefNode.IsExcused.isIdle {layout : Layout} {fetcher : Fetcher} {root : Url}
    {warnings : List Warning} {r : RefNode} (h : r.IsExcused layout fetcher root warnings) :
    r.IsIdle layout fetcher root := by
  intro leaves
  obtain ⟨t, misses, -⟩ := h leaves
  exact ⟨t, misses⟩

section Leftover

variable {layout : Layout} {fetcher : Fetcher} {c : Cache} {scope : Scope} {r : RefNode}

/-- What was resolved stays in the root document. -/
theorem RefNode.Destination.stays (h : r.Destination layout scope c) :
    ¬ (r.rewrite layout c scope).Leaves .root := by
  rw [not_leaves_iff, h.isLocal.1]
  exact ⟨rfl, rfl⟩

/-- What could not be merged leads to its target also in the root document. -/
theorem RefNode.locate_unresolved {t : Target}
    (located : Target.locate r.reference (scope.base c.root) = .ok t) (isLocated : t.IsLocated)
    (readsBack : c.root.ReadsBack t.location) :
    Target.locate (r.unresolved scope).reference c.root = .ok t := by
  cases scope with
  | root => exact located
  | external location =>
    have absolute : r.unresolved (.external location)
        = { r with reference := t.absoluteReference, format := .url } :=
      unresolved_of_located located
    rw [absolute]
    exact (Target.locate_absoluteReference_iff isLocated).2 readsBack

/-- A reference with a fault that is not malformed misses its target. -/
theorem RefNode.Fails.misses {e : ResolveError} (h : r.Fails layout c scope e)
    (leaves : r.Leaves scope) (base : (scope.base c.root).WellFormed) (isPure : fetcher.IsPure)
    (sound : c.Sound layout fetcher) (logged : c.Logged fetcher)
    (readsBack : ∀ location ∈ c.asked, c.root.ReadsBack location)
    (formed : WarningKind.ofError e ≠ .malformedReference) :
    ∃ t, (r.rewrite layout c scope).Misses layout fetcher c.root t ∧
      (WarningKind.ofError e).failedAt? = some t.location.text := by
  have becomes : r.rewrite layout c scope = r.unresolved scope := h.rewrite_eq leaves base sound
  cases h with
  | malformed located => exact absurd (Target.ofError_of_locate located) formed
  | wholeRoot => exact absurd rfl formed
  | @unreadable t outcome _ located outside found failed =>
    have isLocated := Target.isLocated_of_locate base located
    have asked := logged.mem_asked isLocated.location found
    rw [sound.fetched isPure isLocated.location found 0] at failed
    rw [becomes]
    exact ⟨t, ⟨locate_unresolved located isLocated (readsBack _ asked), outside, _, failed⟩,
      Target.failedAt?_of_fragmentOf failed formed⟩

end Leftover

namespace Document.Bundled

variable {fetcher : Fetcher} {options : Options} {document : Document} {root : Url} {q : Pass}
  {copies : List Copy} {done : Definitions}

variable (h : document.Bundled fetcher options root q copies done) (isLocation : root.IsLocation)
  (isPure : fetcher.IsPure) (logged : q.cache.Logged fetcher)
  (uncut : ∀ scope, ¬ DepthReported (document.setting fetcher options) scope q)
  (formed : ∀ warning ∈ q.warnings, warning.kind ≠ .malformedReference)
  (readsBack : ∀ location ∈ q.cache.asked, q.cache.root.ReadsBack location)

include h isLocation isPure logged uncut formed readsBack

/-- Every reference of what a source was made into is excused. -/
theorem isExcused_of_related {source : Scope × Node}
    (isSource : source ∈ bundleSources document copies) {room : Nat} {result : Node}
    (related : Node.RelWithin (Followed (document.setting fetcher options) source.1 · · q)
      (DepthReported (document.setting fetcher options) source.1 q) room source.2 result) :
    result.AllRefs (RefNode.IsExcused document.layout fetcher root q.warnings) := by
  intro place r' found' leaves'
  have isRoot : q.cache.root = root := h.merges.cache.root
  obtain ⟨r, found, here⟩ := optionRel_right (related.refAt? place) found'
  have followed := here.resolve_right fun beyond => uncut source.1 beyond.2.2
  obtain rfl : r' = r.rewrite document.layout q.cache source.1 :=
    followed.2.knows q.cache h.sound (.refl _)
  have isStop := h.mem_allStops uncut isSource place r found
  -- a reference that stayed in its scope still stays
  have leaves : r.Leaves source.1 := by
    by_contra stays
    rw [RefNode.rewrite, if_neg stays] at leaves'
    rw [(RefNode.not_leaves_iff.1 stays).2] at stays
    exact stays leaves'
  have decided : r.Decided document.layout q.cache source.1 := h.ledger.decided _ isStop
  rcases decided leaves with reaches | ⟨e, fault⟩
  · exact absurd leaves' (reaches.destination leaves).stays
  · have warned : Warning.unresolved r.reference e ∈ q.warnings := h.reported isStop fault
    have base := (h.isLocation_base isLocation isSource).wellFormed
    obtain ⟨t, misses, failed⟩ := (RefNode.fails_of_fault? fault).2.misses leaves base isPure
      h.sound logged readsBack (formed _ warned)
    rw [isRoot] at misses
    exact ⟨t, misses, _, warned, failed⟩

/-- **What is left over is excused**, in every definition of the bundle. -/
theorem isExcused : ∀ entry ∈ q.definitions,
    entry.2.AllRefs (RefNode.IsExcused document.layout fetcher root q.warnings) := by
  intro entry member
  obtain ⟨source, isSource, room, related⟩ := h.exists_source member
  exact h.isExcused_of_related isLocation isPure logged uncut formed readsBack isSource related

end Document.Bundled

/-- **A second pass changes nothing.** If a pass cut nothing off and no reference was malformed, the
bundle is its own bundle: no definition changes and nothing is merged. What is asked for again are
locations that the warnings of the first pass name, so without warnings nothing is. -/
theorem resolve_idempotent {fetcher : Fetcher} (isPure : fetcher.IsPure) {options : Options}
    {document : Document} {result : Resolved}
    (resolved : document.resolve fetcher options = .ok result) (whole : result.report.NothingCut)
    (formed : ∀ warning ∈ result.report.warnings, warning.kind ≠ .malformedReference)
    (readsBack : ∀ location ∈ result.cache.asked, result.cache.root.ReadsBack location) :
    ∃ again, result.document.resolve fetcher options = .ok again ∧
      again.document = result.document ∧ again.report.merged = [] ∧
      (∀ location ∈ again.cache.asked, ∃ warning ∈ result.report.warnings,
        warning.kind.failedAt? = some location.text) ∧
      (result.report.warnings = [] → again.report.fetches = 0) := by
  obtain ⟨root, known⟩ := Document.exists_rootUrl_of_resolve fetcher options document resolved
  have isLocation := Options.isLocation_of_rootUrl known
  obtain ⟨copies, done, bundled⟩ := document.lastPass_bundled fetcher options isLocation
  have logged := Document.logged_lastPass fetcher options document isLocation
  rw [Document.resolve_of_rootUrl fetcher options document known, Except.ok.injEq] at resolved
  subst resolved
  generalize document.lastPass fetcher options root = q at *
  have uncut (scope : Scope) : ¬ DepthReported (document.setting fetcher options) scope q :=
    not_depthReported whole
  have excused := bundled.isExcused isLocation isPure logged uncut formed readsBack
  have idle : ({ document with definitions := q.definitions } : Document).IsIdle fetcher root :=
    fun entry member place r found => (excused entry member place r found).isIdle
  obtain ⟨again, resolved, same, merged, count, asked⟩ :=
    Document.resolve_of_idle isPure known idle
  have warned : ∀ location ∈ again.cache.asked, ∃ warning ∈ q.warnings,
      warning.kind.failedAt? = some location.text := by
    intro location member
    obtain ⟨entry, isEntry, place, r, t, found, leaves, misses, rfl⟩ := asked location member
    obtain ⟨u, misses', warning, reported, failed⟩ := excused entry isEntry place r found leaves
    obtain rfl : t = u := Except.ok.inj (misses.located.symm.trans misses'.located)
    exact ⟨warning, reported, failed⟩
  refine ⟨again, resolved, same, merged, warned, fun silent => ?_⟩
  dsimp only at silent
  rw [count, List.length_eq_zero_iff, List.eq_nil_iff_forall_not_mem]
  intro location member
  obtain ⟨warning, reported, -⟩ := warned location member
  rw [silent] at reported
  cases reported

/-! ## A bundle with references that are left over -/

namespace Sample

/-- A document that refers to one that is there and to one that is not. -/
def unfinished : Document :=
  ⟨.swagger2, [("Start", .ref ⟨"pets.yaml#/definitions/Pet", .relativeFile, []⟩),
    ("Lost", .ref ⟨"gone.yaml#/definitions/Lost", .relativeFile, []⟩)], [("definitions", .null)]⟩

/-- The one that is there has nothing under `Tag`, and refers to a third that is not. -/
def unowned : Fetcher :=
  .inMemory [("file:///pets.yaml",
    ("definitions:\n" ++
      " Pet: \x7bproperties: \x7bowner: \x7b$ref: 'owners.yaml#/definitions/Owner'\x7d,\n" ++
      "  tag: \x7b$ref: '#/definitions/Tag'\x7d\x7d\x7d\n").toUTF8.toList)]

/-- A file beside the root document. -/
def beside (file : String) : Url :=
  ⟨"file", some ⟨"", "", none⟩, .rooted [file], none, none⟩

end Sample

/-- One definition is merged and three references are left over. A second pass asks for their
documents again, and changes nothing. -/
theorem resolve_idempotent_unfinished : Sample.unowned.IsPure ∧
    ∃ result again, Sample.unfinished.resolve Sample.unowned .default = .ok result ∧
      result.report.NothingCut ∧ result.report.warnings.length = 3 ∧
      result.report.merged = [⟨"file:///pets.yaml#/definitions/Pet", "Pet"⟩] ∧
      result.document.resolve Sample.unowned .default = .ok again ∧
      again.document = result.document ∧ again.report.merged = [] := by
  have isPure : Sample.unowned.IsPure := Fetcher.isPure_ofFunction _
  have run : (Sample.unfinished.resolve Sample.unowned .default).toOption.map (fun result =>
      (result.report.warnings.map Warning.kind, result.report.merged, result.cache.root,
        result.cache.asked))
      = some ([.fetchFailed "file:///owners.yaml",
          .fragmentNotFound "file:///pets.yaml" "/definitions/Tag",
          .fetchFailed "file:///gone.yaml"],
        [⟨"file:///pets.yaml#/definitions/Pet", "Pet"⟩], Sample.root,
        ["pets.yaml", "owners.yaml", "gone.yaml"].map Sample.beside) := by
    decide +kernel
  obtain ⟨result, resolved, facts⟩ := Option.map_eq_some_iff.1 run
  simp only [Prod.mk.injEq] at facts
  obtain ⟨kinds, merged, isRoot, asked⟩ := facts
  have resolved := eq_ok_of_toOption resolved
  have whole : result.report.NothingCut := Report.nothingCut_of_kinds kinds (by simp)
  have formed : ∀ warning ∈ result.report.warnings, warning.kind ≠ .malformedReference := by
    intro warning reported isMalformed
    have member := List.mem_map_of_mem (f := Warning.kind) reported
    rw [kinds, isMalformed] at member
    exact absurd member (by decide)
  have readsBack : ∀ location ∈ result.cache.asked, result.cache.root.ReadsBack location := by
    intro location member
    rw [asked] at member
    obtain ⟨file, isFile, rfl⟩ := List.mem_map.1 member
    rw [isRoot]
    simp only [List.mem_cons, List.not_mem_nil, or_false] at isFile
    rcases isFile with rfl | rfl | rfl <;> rfl
  obtain ⟨again, resolved', same, merged', -⟩ :=
    resolve_idempotent isPure resolved whole formed readsBack
  have length := congrArg List.length kinds
  rw [List.length_map] at length
  exact ⟨isPure, result, again, resolved, whole, length, merged, resolved', same, merged'⟩

end SchemaBundle
