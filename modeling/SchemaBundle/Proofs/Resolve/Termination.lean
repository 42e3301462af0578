import Mathlib.Data.Set.Card
import SchemaBundle.Proofs.Json.Pointers
import SchemaBundle.Proofs.Resolve.Copies
import SchemaBundle.Proofs.Resolve.Faithful

/-!
# A pass ends

Neither cycles nor documents that refer to ever new ones keep a pass from ending
(`resolve_terminates`): it has a run, it looks into nothing that is deeper than the limit, and it
walks each fragment once. The keys of the fragments that can be read depend on the fetcher alone
(`Fetcher.keys`). If the fetcher serves finitely many documents they are finitely many
(`Fetcher.finite_keys`), and they bound the fragments that are walked, whatever the limit is.
-/

namespace SchemaBundle

open Walk

/-! ## What can be read -/

namespace Fetcher

/-- The documents that a fetcher serves at some time, with the texts of their locations. -/
def documents (fetcher : Fetcher) : Set (String × Bytes) :=
  {document | ∃ turn location, Url.IsLocation location ∧ location.text = document.1 ∧
    fetcher.answer turn location = .ok document.2}

/-- The keys of the fragments that can be read in documents that a fetcher serves at some time. -/
def keys (fetcher : Fetcher) : Set TargetKey :=
  {key | ∃ (t : Target) (turn : Nat) (value part : Json), t.IsLocated ∧ t.key = key ∧
    Cache.fetchDocument fetcher turn t.location = .ok value ∧ t.select value = .ok part}

theorem read_of_fetchDocument {fetcher : Fetcher} {turn : Nat} {location : Url} {value : Json}
    (h : Cache.fetchDocument fetcher turn location = .ok value) :
    ∃ bytes, fetcher.answer turn location = .ok bytes ∧ loadJson bytes = .ok value := by
  unfold Cache.fetchDocument at h
  split at h
  · cases h
  · rename_i bytes answered
    split at h
    · rename_i read loaded
      cases h
      exact ⟨bytes, answered, loaded⟩
    · cases h

/-- Finitely many documents have finitely many fragments. -/
theorem finite_keys {fetcher : Fetcher} (finite : fetcher.documents.Finite) :
    fetcher.keys.Finite := by
  let pointers (bytes : Bytes) : Set String :=
    {pointer | ∃ value, loadJson bytes = .ok value ∧ (value.select? pointer).isSome = true}
  have finitePointers (bytes : Bytes) : (pointers bytes).Finite := by
    cases loaded : loadJson bytes with
    | error e => exact Set.finite_empty.subset fun pointer h => by simp [pointers, loaded] at h
    | ok value =>
      refine (Json.finite_selecting value).subset fun pointer h => ?_
      simpa [pointers, loaded] using h
  have all : (⋃ document ∈ fetcher.documents,
      TargetKey.mk document.1 '' insert "" (pointers document.2)).Finite :=
    finite.biUnion fun document _ => ((finitePointers document.2).insert "").image _
  refine all.subset ?_
  rintro key ⟨t, turn, value, part, isLocated, rfl, fetched, selected⟩
  obtain ⟨bytes, answered, loaded⟩ := read_of_fetchDocument fetched
  refine Set.mem_biUnion (x := (t.location.text, bytes))
    ⟨turn, t.location, isLocated.location, rfl, answered⟩ ⟨t.fragment.getD "", ?_, rfl⟩
  cases pointer : t.fragment with
  | none => exact Set.mem_insert ..
  | some pointer' =>
    refine Set.mem_insert_of_mem _ ⟨value, loaded, ?_⟩
    rw [Target.select, pointer] at selected
    dsimp only at selected
    split at selected
    · rename_i inner found
      simp [found]
    · cases selected

/-- Documents in memory are finitely many. -/
theorem finite_documents_inMemory (served : Entries Bytes) :
    (inMemory served).documents.Finite := by
  refine (List.finite_toSet served).subset ?_
  rintro ⟨text, bytes⟩ ⟨turn, location, -, rfl, answered⟩
  simp only [inMemory, ofFunction] at answered
  split at answered
  · rename_i found
    cases answered
    exact Entries.mem_of_find? found
  · cases answered

end Fetcher

/-! ## The work of a pass -/

/-- What bounds a run: the limit for what it looks into, and the keys that can be read for the
fragments that it walks, each at most once. -/
structure Bounded (fetcher : Fetcher) (options : Options) (events : List Event) : Prop where
  depth : ∀ {depth}, .looked depth ∈ events → depth ≤ options.maxDepth
  once : ((events.filterMap Event.fragment?).map fun fragment => fragment.1.key).Nodup
  readable : ∀ fragment ∈ events.filterMap Event.fragment?, fragment.1.key ∈ fetcher.keys

/-- Where the keys are finitely many, so are the fragments that are walked. -/
theorem Bounded.length_le {fetcher : Fetcher} {options : Options} {events : List Event}
    (h : Bounded fetcher options events) (finite : fetcher.keys.Finite) :
    (events.filterMap Event.fragment?).length ≤ fetcher.keys.ncard := by
  let walked := (events.filterMap Event.fragment?).map fun fragment => fragment.1.key
  have among : (walked.toFinset : Set TargetKey) ⊆ fetcher.keys := by
    intro key member
    obtain ⟨fragment, isFragment, rfl⟩ := List.mem_map.1 (List.mem_toFinset.1 member)
    exact h.readable fragment isFragment
  calc (events.filterMap Event.fragment?).length
      = walked.toFinset.card := by
        rw [List.toFinset_card_of_nodup h.once]
        exact (List.length_map _).symm
    _ = (walked.toFinset : Set TargetKey).ncard := (Set.ncard_coe_finset _).symm
    _ ≤ fetcher.keys.ncard := Set.ncard_le_ncard among finite

namespace Document.Run

variable {fetcher : Fetcher} {options : Options} {document : Document} {root : Url} {q : Pass}
  {events : List Event}

/-- Each fragment that is walked is the source of a copy. -/
theorem length_fragments (h : document.Run fetcher options root events q)
    (isLocation : root.IsLocation) :
    (events.filterMap Event.fragment?).length = q.merged.length := by
  have merged := (h.merges isLocation).2.1.merged
  rw [(Sweeps.fragments h).length_eq, merged, List.length_map]
  simp [Pass.start]

theorem bounded (h : document.Run fetcher options root events q) (isLocation : root.IsLocation) :
    Bounded fetcher options events := by
  obtain ⟨sound, merges, -⟩ := h.merges isLocation
  have fragments := Sweeps.fragments h
  refine ⟨fun {depth} member => ?_, ?_, fun fragment isFragment => ?_⟩
  · obtain ⟨earlier, later, rfl⟩ := List.append_of_mem member
    obtain ⟨_, _, _, here, _⟩ := h.trace.leads
    cases here with
    | looked within => exact within
  · have keys := fragments.map fun fragment => fragment.1.key
    rw [List.map_map] at keys
    exact keys.nodup_iff.2 merges.distinct
  · obtain ⟨copy, isCopy, rfl⟩ := List.mem_map.1 (fragments.mem_iff.1 isFragment)
    obtain ⟨isLocated, turn, value, part, fetched, selected, -⟩ :=
      (merges.faithful copy isCopy).isRead sound
    exact ⟨copy.target, turn, value, part, isLocated, rfl, fetched, selected⟩

end Document.Run

/-! ## The end of a pass -/

/-- **A pass ends**, whatever the document, the options and the fetcher are. Either the location of
the root is refused, or there is a run, and every run ends in the pass that is reported. It looks
into nothing beyond the limit, and it walks each fragment that can be read at most once; if the
fetcher serves finitely many documents there are finitely many of these. The search for the name of
a fragment ends as well. -/
theorem resolve_terminates (fetcher : Fetcher) (options : Options) (document : Document) :
    (∀ natural node (p : Pass), ∃ k ≤ p.definitions.length + p.cache.reserved.length,
      p.offer? (options.reuseIdentical && node.isSelfContained) node (Pass.candidate natural k)
        = some (p.place options natural node) ∧
      ∀ j < k, p.offer? (options.reuseIdentical && node.isSelfContained) node
        (Pass.candidate natural j) = none) ∧
    ((∃ e, options.rootUrl = .error e ∧ document.resolve fetcher options = .error e) ∨
      ∃ root result q, options.rootUrl = .ok root ∧
        document.resolve fetcher options = .ok result ∧
        result = ⟨{ document with definitions := q.definitions },
          ⟨q.warnings, q.merged, q.cache.fetches⟩, q.cache⟩ ∧
        (∃ events, document.Run fetcher options root events q) ∧
        ∀ events s, document.Run fetcher options root events s → s = q ∧
          Bounded fetcher options events ∧
          (events.filterMap Event.fragment?).length = result.report.merged.length ∧
          (fetcher.documents.Finite → fetcher.keys.Finite ∧
            (events.filterMap Event.fragment?).length ≤ fetcher.keys.ncard)) := by
  refine ⟨fun natural node p => p.exists_first_offer options natural node, ?_⟩
  cases known : options.rootUrl with
  | error e => exact .inl ⟨e, rfl, by rw [Document.resolve, known]; rfl⟩
  | ok root =>
    have isLocation := Options.isLocation_of_rootUrl known
    refine .inr ⟨root, _, document.lastPass fetcher options root, rfl,
      document.resolve_of_rootUrl fetcher options known, rfl,
      document.exists_run fetcher options isLocation, ?_⟩
    intro events s run
    obtain rfl := run.unique
    have bounded := run.bounded isLocation
    refine ⟨rfl, bounded, run.length_fragments isLocation, fun finite => ?_⟩
    have finite := Fetcher.finite_keys finite
    exact ⟨finite, bounded.length_le finite⟩

/-- The two fragments of the sample that refer to each other are walked once each, and there are no
more than its one document has. -/
theorem resolve_terminates_sample : Sample.fetcher.documents.Finite ∧
    ∃ result events q, Sample.document.resolve Sample.fetcher .default = .ok result ∧
      Sample.document.Run Sample.fetcher .default Sample.root events q ∧
      Bounded Sample.fetcher .default events ∧
      (events.filterMap Event.fragment?).length = 2 ∧ 2 ≤ Sample.fetcher.keys.ncard := by
  have finite : Sample.fetcher.documents.Finite := Fetcher.finite_documents_inMemory _
  obtain ⟨result, resolved, report⟩ := Sample.exists_result
  obtain ⟨-, ⟨e, refused, -⟩ | ⟨root, result', q, known, resolved', -, ⟨events, run⟩, runs⟩⟩ :=
    resolve_terminates Sample.fetcher .default Sample.document
  · cases refused
  · obtain rfl : root = Sample.root := Except.ok.inj known.symm
    obtain rfl : result = result' := Except.ok.inj (resolved.symm.trans resolved')
    obtain ⟨-, bounded, length, bound⟩ := runs events q run
    have two : (events.filterMap Event.fragment?).length = 2 := by
      rw [length, report]
      rfl
    exact ⟨finite, result, events, q, resolved, run, bounded, two, two ▸ (bound finite).2⟩

end SchemaBundle
