import SchemaBundle.Proofs.Reference.Located
import SchemaBundle.Proofs.Resolve.Follow

/-!
# What a cache knows, and what references become by it

`RefNode.rewrite` says without any walk what a reference becomes, given the names that a cache
knows. A walk decides this early, with a cache that learns more later, so `RefNode.Knows` asks that
every later cache agrees. Later caches know at least as much (`Cache.Le`), and what they know is
read from documents that were asked for once (`Cache.Sound`): a fragment that cannot be read now
never gets a name, since a target is determined by its key.
-/

namespace SchemaBundle

/-- What was read of a fragment: the document was there, the pointer selected a value, and there is
a name for it. -/
theorem Target.eq_ofJson_of_fragmentOf {layout : Layout} {t : Target}
    {outcome : Except ResolveError Json} {node : Node} {natural : String}
    (h : t.fragmentOf layout outcome = .ok (node, natural)) :
    ∃ value part, outcome = .ok value ∧ t.select value = .ok part ∧
      t.definitionName? = some natural ∧ node = Node.ofJson layout part := by
  unfold fragmentOf at h
  cases outcome with
  | error e => cases h
  | ok value =>
    cases selected : t.select value with
    | error e => simp [selected, bind, Except.bind] at h
    | ok part =>
      cases named : t.definitionName? with
      | none => simp [selected, named, bind, Except.bind, throw, throwThe, MonadExceptOf.throw] at h
      | some name =>
        simp only [selected, named, bind, Except.bind, pure, Except.pure, Except.ok.injEq,
          Prod.mk.injEq] at h
        exact ⟨value, part, rfl, selected, congrArg some h.2, h.1.symm⟩

namespace Cache

/-! ## Caches that know more -/

/-- What the first cache knows, the second knows too. -/
structure Le (c d : Cache) : Prop where
  root : d.root = c.root
  documents : ∀ {text outcome}, Entries.find? text c.documents = some outcome →
    Entries.find? text d.documents = some outcome
  names : ∀ {key name}, c.localName? key = some name → d.localName? key = some name
  reserved : ∀ {name}, c.isReserved name = true → d.isReserved name = true

theorem Le.refl (c : Cache) : c.Le c :=
  ⟨rfl, id, id, id⟩

theorem Le.trans {c d e : Cache} (hcd : c.Le d) (hde : d.Le e) : c.Le e :=
  ⟨hde.root.trans hcd.root, fun h => hde.documents (hcd.documents h),
    fun h => hde.names (hcd.names h), fun h => hde.reserved (hcd.reserved h)⟩

theorem Le.unnamed {c d : Cache} (h : c.Le d) {key : TargetKey} (later : d.localName? key = none) :
    c.localName? key = none := by
  cases found : c.localName? key with
  | none => rfl
  | some name => exact absurd (h.names found) (by simp [later])

theorem Le.unreserved {c d : Cache} (h : c.Le d) {name : String}
    (later : d.isReserved name = false) : c.isReserved name = false := by
  cases found : c.isReserved name with
  | false => rfl
  | true => exact absurd (h.reserved found) (by simp [later])

/-- A mark changes nothing that is known. -/
theorem le_mark (key : TargetKey) (c : Cache) : c.Le (c.mark key).2 :=
  ⟨root_mark .., fun h => by rwa [documents_mark], fun h => by rwa [localName?_mark],
    fun h => by simpa [isReserved] using h⟩

theorem le_finish (key : TargetKey) (c : Cache) : c.Le (c.finish key) :=
  ⟨rfl, id, id, id⟩

section Load

variable {layout : Layout} {fetcher : Fetcher} {location : Url} {c : Cache}

/-- After a document was asked for, what was got is kept. -/
theorem find?_load (fetcher : Fetcher) (location : Url) (c : Cache) :
    Entries.find? location.text (c.load fetcher location).2.documents
      = some (c.load fetcher location).1 := by
  cases h : Entries.find? location.text c.documents with
  | some outcome => simp [load, h]
  | none => simp [load, h, Entries.find?_append_self h]

/-- A document was there, or is the one that was asked for. -/
theorem find?_load_cases {text : String} {outcome : Except ResolveError Json}
    (h : Entries.find? text (c.load fetcher location).2.documents = some outcome) :
    Entries.find? text c.documents = some outcome ∨
      text = location.text ∧ outcome = fetchDocument fetcher c.fetches location := by
  cases known : Entries.find? location.text c.documents with
  | some found => exact .inl (by simpa [load, known] using h)
  | none =>
    simp only [load, known] at h
    cases before : Entries.find? text c.documents with
    | some found =>
      rw [Entries.find?_append_of_some before] at h
      exact .inl h
    | none =>
      by_cases same : text = location.text
      · subst same
        rw [Entries.find?_append_self before] at h
        exact .inr ⟨rfl, (Option.some.inj h).symm⟩
      · rw [Entries.find?_append_of_ne same, before] at h
        cases h

theorem le_load (fetcher : Fetcher) (location : Url) (c : Cache) :
    c.Le (c.load fetcher location).2 := by
  refine ⟨root_load .., fun {text outcome} h => ?_, fun h => by rwa [localName?_load],
    fun h => by rwa [isReserved_load]⟩
  unfold load
  split
  · exact h
  · exact Entries.find?_append_of_some h _

end Load

theorem le_record {key : TargetKey} {c : Cache} (unnamed : c.localName? key = none)
    (name : String) : c.Le (c.record key name) := by
  refine ⟨rfl, id, fun {other _} h => ?_, fun h => (isReserved_record ..).2 (.inr h)⟩
  have ne : key ≠ other := by
    rintro rfl
    simp [unnamed] at h
  rwa [localName?_record_of_ne ne]

theorem localName?_record_cases {key other : TargetKey} {name found : String} {c : Cache}
    (h : (c.record key name).localName? other = some found) :
    c.localName? other = some found ∨ found = name := by
  by_cases same : key = other
  · subst same
    rw [localName?_record_self, Option.some.injEq] at h
    exact .inr h.symm
  · rw [localName?_record_of_ne same] at h
    exact .inl h

/-! ## Sound caches -/

/-- Documents are what the fetcher gave, and names belong to fragments that can be read. -/
structure Sound (layout : Layout) (fetcher : Fetcher) (c : Cache) : Prop where
  root : c.root.WellFormed
  documents : ∀ {text outcome}, Entries.find? text c.documents = some outcome →
    ∃ turn location, Url.IsLocation location ∧ location.text = text ∧
      outcome = fetchDocument fetcher turn location
  names : ∀ {key name}, c.localName? key = some name →
    ∃ t outcome fragment, Target.IsLocated t ∧ t.key = key ∧
      Entries.find? t.location.text c.documents = some outcome ∧
      t.fragmentOf layout outcome = .ok fragment

theorem sound_empty {root : Url} (h : root.WellFormed) (layout : Layout) (fetcher : Fetcher) :
    (empty root).Sound layout fetcher :=
  ⟨h, fun found => by simp [empty, Entries.find?] at found,
    fun named => by simp [empty, localName?] at named⟩

namespace Sound

variable {layout : Layout} {fetcher : Fetcher} {c d : Cache}

/-- Soundness is about the root, the documents and the names. -/
theorem congr (h : c.Sound layout fetcher) (root : d.root = c.root)
    (documents : d.documents = c.documents) (names : d.names = c.names) :
    d.Sound layout fetcher := by
  refine ⟨root ▸ h.root, fun found => h.documents (documents ▸ found), fun named => ?_⟩
  rw [documents]
  exact h.names (by rwa [localName?, names] at named)

theorem load (h : c.Sound layout fetcher) {location : Url} (hl : location.IsLocation) :
    (c.load fetcher location).2.Sound layout fetcher := by
  refine ⟨by rw [root_load]; exact h.root, fun found => ?_, fun named => ?_⟩
  · rcases find?_load_cases found with before | ⟨rfl, rfl⟩
    · exact h.documents before
    · exact ⟨_, location, hl, rfl, rfl⟩
  · rw [localName?_load] at named
    obtain ⟨t, outcome, fragment, located, key, found, read⟩ := h.names named
    exact ⟨t, outcome, fragment, located, key, (le_load ..).documents found, read⟩

/-- A fragment that was read may get a name. -/
theorem record (h : c.Sound layout fetcher) {t : Target} (located : t.IsLocated)
    {outcome : Except ResolveError Json} {fragment : Node × String}
    (found : Entries.find? t.location.text c.documents = some outcome)
    (read : t.fragmentOf layout outcome = .ok fragment) (name : String) :
    (c.record t.key name).Sound layout fetcher := by
  refine ⟨h.root, h.documents, fun {key _} named => ?_⟩
  by_cases same : t.key = key
  · exact ⟨t, outcome, fragment, located, same, found, read⟩
  · rw [localName?_record_of_ne same] at named
    exact h.names named

/-- A fragment that cannot be read has no name. -/
theorem unnamed (h : c.Sound layout fetcher) {t : Target} (located : t.IsLocated)
    {outcome : Except ResolveError Json} {e : ResolveError}
    (found : Entries.find? t.location.text c.documents = some outcome)
    (failed : t.fragmentOf layout outcome = .error e) : c.localName? t.key = none := by
  cases named : c.localName? t.key with
  | none => rfl
  | some name =>
    obtain ⟨t', outcome', fragment, located', key, found', read⟩ := h.names named
    obtain rfl := Target.eq_of_key located' located key
    rw [found, Option.some.injEq] at found'
    simp [← found', failed] at read

end Sound

end Cache

/-! ## Fetchers that do not change their minds -/

/-- The answers of a fetcher depend on the location alone. -/
def Fetcher.IsPure (fetcher : Fetcher) : Prop :=
  ∀ turn turn' location, fetcher.answer turn location = fetcher.answer turn' location

theorem Fetcher.isPure_ofFunction (f : Url → Except FetchError Bytes) {words : ReaderWords} :
    (ofFunction f words).IsPure :=
  fun _ _ _ => rfl

namespace Cache

variable {layout : Layout} {fetcher : Fetcher} {c : Cache}

theorem fetchDocument_of_isPure (h : fetcher.IsPure) (turn turn' : Nat) (location : Url) :
    fetchDocument fetcher turn location = fetchDocument fetcher turn' location := by
  rw [fetchDocument, fetchDocument, h turn turn' location]

/-- What a cache has of a location is what the fetcher would answer at any time. -/
theorem Sound.fetched (sound : c.Sound layout fetcher) (isPure : fetcher.IsPure) {location : Url}
    (isLocation : location.IsLocation) {outcome : Except ResolveError Json}
    (found : Entries.find? location.text c.documents = some outcome) (turn : Nat) :
    outcome = fetchDocument fetcher turn location := by
  obtain ⟨turn', location', isLocation', same, rfl⟩ := sound.documents found
  obtain rfl := isLocation'.eq_of_text isLocation same
  exact fetchDocument_of_isPure isPure ..

end Cache

/-! ## What references become -/

instance (scope : Scope) (r : RefNode) : Decidable (r.Leaves scope) :=
  inferInstanceAs (Decidable (_ ∨ _))

namespace RefNode

/-- A reference that is local now. -/
def localized (r : RefNode) (reference : String) : RefNode :=
  { r with reference, format := .internal }

/-- What a reference that is written in a scope becomes, by the names that a cache knows. -/
def rewrite (layout : Layout) (cache : Cache) (scope : Scope) (r : RefNode) : RefNode :=
  if r.Leaves scope then
    match Target.locate r.reference (scope.base cache.root) with
    | .error _ => r
    | .ok t =>
      if t.location = cache.root then
        match t.fragment with
        | some pointer => r.localized ("#" ++ pointer)
        | none => r.unresolved scope
      else
        match cache.localName? t.key with
        | some name => r.localized (layout.localRef name)
        | none => r.unresolved scope
  else r

/-- What a reference became is what it becomes by every sound cache that knows more. -/
def Knows (layout : Layout) (fetcher : Fetcher) (scope : Scope) (r r' : RefNode) (c : Cache) :
    Prop :=
  ∀ d : Cache, d.Sound layout fetcher → c.Le d → r' = r.rewrite layout d scope

/-- A reference leads somewhere: into the root document, or to a fragment that has a name. -/
def Reaches (scope : Scope) (r : RefNode) (c : Cache) : Prop :=
  ∃ t, Target.locate r.reference (scope.base c.root) = .ok t ∧
    (t.location = c.root ∧ t.fragment.isSome ∨
      t.location ≠ c.root ∧ (c.localName? t.key).isSome)

section Knows

variable {layout : Layout} {fetcher : Fetcher} {scope : Scope} {r r' : RefNode} {c d : Cache}
  {t : Target}

theorem Knows.mono (h : Knows layout fetcher scope r r' c) (le : c.Le d) :
    Knows layout fetcher scope r r' d :=
  fun e sound hde => h e sound (le.trans hde)

theorem Reaches.mono (h : Reaches scope r c) (le : c.Le d) : Reaches scope r d := by
  obtain ⟨t, located, there⟩ := h
  rw [← le.root] at located there
  refine ⟨t, located, there.imp_right fun ⟨outside, named⟩ => ⟨outside, ?_⟩⟩
  obtain ⟨name, named⟩ := Option.isSome_iff_exists.1 named
  simp [le.names named]

/-- Where a reference leads that leads somewhere. -/
inductive Destination (layout : Layout) (scope : Scope) (r : RefNode) (c : Cache) : Prop
  /-- Into the root document. -/
  | root {t : Target} {pointer : String}
    (located : Target.locate r.reference (scope.base c.root) = .ok t) (inRoot : t.location = c.root)
    (inside : t.fragment = some pointer)
    (becomes : r.rewrite layout c scope = r.localized ("#" ++ pointer))
  /-- To a fragment with a name. -/
  | named {t : Target} {name : String}
    (located : Target.locate r.reference (scope.base c.root) = .ok t)
    (outside : t.location ≠ c.root) (named : c.localName? t.key = some name)
    (becomes : r.rewrite layout c scope = r.localized (layout.localRef name))

theorem Reaches.destination (h : r.Reaches scope c) (leaves : r.Leaves scope) :
    r.Destination layout scope c := by
  obtain ⟨t, located, ⟨inRoot, inside⟩ | ⟨outside, named⟩⟩ := h
  · obtain ⟨pointer, inside⟩ := Option.isSome_iff_exists.1 inside
    refine .root located inRoot inside ?_
    rw [rewrite, if_pos leaves, located]
    simp only [inRoot, inside, if_true]
  · obtain ⟨name, named⟩ := Option.isSome_iff_exists.1 named
    refine .named located outside named ?_
    rw [rewrite, if_pos leaves, located]
    simp only [outside, named, if_false]

theorem knows_kept (stays : ¬ r.Leaves scope) : Knows layout fetcher scope r r c :=
  fun _ _ _ => by rw [rewrite, if_neg stays]

theorem unresolved_of_malformed {e : ResolveError} {root : Url}
    (malformed : Target.locate r.reference (scope.base root) = .error e) :
    r.unresolved scope = r := by
  cases scope with
  | root => rfl
  | external base =>
    simp only [Scope.base] at malformed
    simp only [unresolved, Walk.pinned, malformed]

theorem knows_malformed {e : ResolveError}
    (malformed : Target.locate r.reference (scope.base c.root) = .error e) :
    Knows layout fetcher scope r (r.unresolved scope) c := by
  intro d _ le
  rw [unresolved_of_malformed malformed, rewrite, le.root, malformed]
  simp only [ite_self]

theorem knows_wholeRoot (leaves : r.Leaves scope)
    (located : Target.locate r.reference (scope.base c.root) = .ok t)
    (inRoot : t.location = c.root) (whole : t.fragment = none) :
    Knows layout fetcher scope r (r.unresolved scope) c := by
  intro d _ le
  rw [rewrite, if_pos leaves, le.root, located]
  simp only [inRoot, whole, if_true]

theorem knows_backToRoot (leaves : r.Leaves scope)
    (located : Target.locate r.reference (scope.base c.root) = .ok t)
    (inRoot : t.location = c.root) {pointer : String} (inside : t.fragment = some pointer) :
    Knows layout fetcher scope r (r.localized ("#" ++ pointer)) c := by
  intro d _ le
  rw [rewrite, if_pos leaves, le.root, located]
  simp only [inRoot, inside, if_true]

theorem knows_named (leaves : r.Leaves scope)
    (located : Target.locate r.reference (scope.base c.root) = .ok t)
    (outside : t.location ≠ c.root) {name : String} (named : c.localName? t.key = some name) :
    Knows layout fetcher scope r (r.localized (layout.localRef name)) c := by
  intro d _ le
  rw [rewrite, if_pos leaves, le.root, located]
  simp only [outside, le.names named, if_false]

/-- A fragment that cannot be read stays out of reach. -/
theorem knows_unreadable (leaves : r.Leaves scope)
    (located : Target.locate r.reference (scope.base c.root) = .ok t) (isLocated : t.IsLocated)
    (outside : t.location ≠ c.root) {outcome : Except ResolveError Json} {e : ResolveError}
    (found : Entries.find? t.location.text c.documents = some outcome)
    (failed : t.fragmentOf layout outcome = .error e) :
    Knows layout fetcher scope r (r.unresolved scope) c := by
  intro d sound le
  rw [rewrite, if_pos leaves, le.root, located]
  simp only [outside, sound.unnamed isLocated (le.documents found) failed, if_false]

end Knows

end RefNode

end SchemaBundle
