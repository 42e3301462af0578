import SchemaBundle.Proofs.Resolve.Copies
import SchemaBundle.Proofs.Resolve.Faithful

/-!
# Definitions that are reported as missing

A reference that stays in the root document is looked up once, when it is followed. Its definition
is reported as missing exactly if its name is neither in the document nor one of those under which a
merge began before (`Document.Misses`). Merges that begin later are not known then: the report is
wrong exactly if one of them takes the name (`resolve_dangles_iff`), and so it hangs on the order of
the definitions (`resolve_dangles_early`).
-/

namespace SchemaBundle

open Walk

/-- Before the events `later` of a history, a reference of the root document to the definition of a
name is followed, and the name is not in use by then. -/
def Document.Misses (document : Document) (events : List Event) (name : String)
    (later : List Event) : Prop :=
  ∃ earlier depth r, events = earlier ++ .followed depth .root r :: later ∧
    r.format.isExternal = false ∧ document.layout.localName? r.reference = some name ∧
    name ∉ Entries.keys document.definitions ∧ name ∉ earlier.filterMap Event.name?

section Misses

variable {fetcher : Fetcher} {options : Options} {document : Document} {root : Url} {q : Pass}
  {events : List Event} {name : String}

theorem Pass.inUse_start {definitions : Definitions} :
    (Pass.start definitions (Cache.empty root)).InUse name ↔ name ∈ Entries.keys definitions :=
  or_iff_left (by simp [Pass.start, Cache.empty, Cache.isReserved])

theorem Document.Run.dangles_iff (h : document.Run fetcher options root events q) :
    q.Dangles name ↔ ∃ later, document.Misses events name later := by
  rw [h.trace.dangles_iff, or_iff_right (by simp [Pass.Dangles, Pass.start])]
  constructor
  · rintro ⟨earlier, depth, scope, r, later, same, stays, names, free, notYet⟩
    obtain ⟨internal, rfl⟩ := RefNode.not_leaves_iff.1 stays
    exact ⟨later, earlier, depth, r, same, by simpa using internal, names,
      fun present => free (Pass.inUse_start.2 present), notYet⟩
  · rintro ⟨later, earlier, depth, r, same, internal, names, absent, notYet⟩
    exact ⟨earlier, depth, .root, r, later, same,
      RefNode.not_leaves_iff.2 ⟨by simpa using internal, rfl⟩, names,
      fun used => absent (Pass.inUse_start.1 used), notYet⟩

/-- What was missing is there at the end exactly if a later merge takes the name. -/
theorem Document.Misses.mem_keys_iff {later : List Event}
    (misses : document.Misses events name later)
    (h : document.Run fetcher options root events q) (isLocation : root.IsLocation) :
    name ∈ Entries.keys q.definitions ↔ name ∈ later.filterMap Event.name? := by
  obtain ⟨earlier, depth, r, rfl, -, -, absent, notYet⟩ := misses
  rw [h.mem_keys_iff isLocation, or_iff_right absent, List.filterMap_append, List.mem_append,
    or_iff_right notYet]
  rfl

end Misses

/-- **When a definition is reported as missing.** It is exactly if a reference of the root document
to it is followed before its name is in use. The report is wrong exactly if a fragment takes the
name later. -/
theorem resolve_dangles_iff {fetcher : Fetcher} {options : Options} {document : Document}
    {result : Resolved} (resolved : document.resolve fetcher options = .ok result) :
    ∃ root events q, options.rootUrl = .ok root ∧ document.Run fetcher options root events q ∧
      result = ⟨{ document with definitions := q.definitions },
        ⟨q.warnings, q.merged, q.cache.fetches⟩, q.cache⟩ ∧
      ∀ name,
        ((∃ warning ∈ result.report.warnings, warning.kind = .danglingReference name) ↔
          ∃ later, document.Misses events name later) ∧
        ∀ later, document.Misses events name later →
          (name ∈ Entries.keys result.document.definitions ↔
            name ∈ later.filterMap Event.name?) := by
  obtain ⟨root, events, q, known, isLocation, run, rfl⟩ := Document.exists_run_of_resolve resolved
  exact ⟨root, events, q, known, run, rfl, fun name =>
    ⟨run.dangles_iff, fun later misses => misses.mem_keys_iff run isLocation⟩⟩

/-! ## A report that is wrong -/

namespace Sample

/-- A document whose first definition refers to a name that the second one brings in. -/
def early : Document :=
  ⟨.swagger2, [("Early", .ref ⟨"#/definitions/Pet", .internal, []⟩),
    ("Start", .ref ⟨"pets.yaml#/definitions/Pet", .relativeFile, []⟩)], [("definitions", .null)]⟩

/-- The same definitions the other way round. -/
def late : Document :=
  { early with definitions := early.definitions.reverse }

end Sample

theorem Sample.exists_early : ∃ result, early.resolve fetcher .default = .ok result ∧
    result.report.warnings.map Warning.kind = [.danglingReference "Pet"] ∧
    (∃ warning ∈ result.report.warnings, warning.kind = .danglingReference "Pet") ∧
    "Pet" ∈ Entries.keys result.document.definitions := by
  have run : (early.resolve fetcher .default).toOption.map (fun result =>
      (result.report.warnings.map Warning.kind, Entries.keys result.document.definitions))
      = some ([.danglingReference "Pet"], ["Early", "Start", "Tag", "Pet"]) := by
    decide +kernel
  obtain ⟨result, resolved, same⟩ := exists_of_toOption_map run
  obtain ⟨kinds, keys⟩ := Prod.mk.inj same
  have warned : .danglingReference "Pet" ∈ result.report.warnings.map Warning.kind := by
    rw [kinds]
    exact List.mem_singleton_self _
  exact ⟨result, resolved, kinds, List.mem_map.1 warned, by simp [keys]⟩

/-- What is reported is that the name was looked up before the merge that takes it. -/
theorem resolve_dangles_iff_early :
    ∃ result events q, Sample.early.resolve Sample.fetcher .default = .ok result ∧
      Sample.early.Run Sample.fetcher .default Sample.root events q ∧
      ∃ later, Sample.early.Misses events "Pet" later ∧ "Pet" ∈ later.filterMap Event.name? := by
  obtain ⟨result, resolved, -, warned, present⟩ := Sample.exists_early
  obtain ⟨root, events, q, known, run, -, reported⟩ := resolve_dangles_iff resolved
  obtain rfl : Sample.root = root := Except.ok.inj known
  obtain ⟨misses, taken⟩ := reported "Pet"
  obtain ⟨later, missed⟩ := misses.1 warned
  exact ⟨result, events, q, resolved, run, later, missed, (taken later missed).1 present⟩

/-- A definition is reported as missing and is there at the end. With the definitions the other way
round nothing is reported. -/
theorem resolve_dangles_early :
    (∃ result, Sample.early.resolve Sample.fetcher .default = .ok result ∧
      (∃ warning ∈ result.report.warnings, warning.kind = .danglingReference "Pet") ∧
      "Pet" ∈ Entries.keys result.document.definitions) ∧
    ∃ result, Sample.late.resolve Sample.fetcher .default = .ok result ∧
      result.report.warnings = [] ∧ "Pet" ∈ Entries.keys result.document.definitions := by
  constructor
  · obtain ⟨result, resolved, -, warned, present⟩ := Sample.exists_early
    exact ⟨result, resolved, warned, present⟩
  · have run : (Sample.late.resolve Sample.fetcher .default).toOption.map (fun result =>
        (result.report.warnings, Entries.keys result.document.definitions))
        = some ([], ["Start", "Early", "Tag", "Pet"]) := by
      decide +kernel
    obtain ⟨result, resolved, same⟩ := exists_of_toOption_map run
    obtain ⟨warnings, keys⟩ := Prod.mk.inj same
    exact ⟨result, resolved, warnings, by simp [keys]⟩

end SchemaBundle
