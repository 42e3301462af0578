import SchemaBundle.Proofs.Json.Loaded
import SchemaBundle.Proofs.Resolve.Complete
import SchemaBundle.Proofs.Resolve.Naming
import SchemaBundle.Proofs.Resolve.Reuse
import SchemaBundle.Proofs.Schema.Comparison

/-!
# The fragments that a document leads to

`Document.Meets` says which references there are to follow: those of the definitions, and those of
the fragments that they lead to. It speaks of what a fetcher has and not of a pass, and the order of
the definitions is of no account (`Document.Meets.of_subset`).

A fragment is known by the key of its target (`Document.LeadsTo.eq_of_key`). A pass that cuts
nothing off gives each of them a name (`Document.LeadsTo.named`).
-/

namespace SchemaBundle

/-- A reference leads to a fragment outside the root document that can be read and has a name. -/
structure RefNode.Reads (layout : Layout) (fetcher : Fetcher) (root : Url) (scope : Scope)
    (r : RefNode) (f : Fragment) : Prop where
  leaves : r.Leaves scope
  located : Target.locate r.reference (scope.base root) = .ok f.target
  outside : f.target.location ≠ root
  read : f.target.fragmentOf layout (Cache.fetchDocument fetcher 0 f.target.location)
    = .ok (f.node, f.natural)

/-- The references that are met on the way from the definitions of a document. -/
inductive Document.Meets (fetcher : Fetcher) (root : Url) (document : Document) :
    Scope → RefNode → Prop
  | own {entry : String × Node} {place : List PlaceStep} {r : RefNode}
    (isEntry : entry ∈ document.definitions) (found : entry.2.refAt? place = some r) :
    Meets fetcher root document .root r
  | onward {scope : Scope} {r r' : RefNode} {f : Fragment} {place : List PlaceStep}
    (met : Meets fetcher root document scope r)
    (reads : r.Reads document.layout fetcher root scope f)
    (found : f.node.refAt? place = some r') :
    Meets fetcher root document (.external f.target.location) r'

/-- The fragments that are met on the way from the definitions of a document. -/
def Document.LeadsTo (fetcher : Fetcher) (root : Url) (document : Document) (f : Fragment) : Prop :=
  ∃ scope r, document.Meets fetcher root scope r ∧ r.Reads document.layout fetcher root scope f

namespace Document

variable {fetcher : Fetcher} {options : Options} {document other : Document} {root : Url}
  {scope : Scope} {r : RefNode} {f g : Fragment}

/-! ## What is met does not hang on an order -/

theorem Meets.of_subset (layout : other.layout = document.layout)
    (subset : document.definitions ⊆ other.definitions)
    (h : document.Meets fetcher root scope r) : other.Meets fetcher root scope r := by
  induction h with
  | own isEntry found => exact .own (subset isEntry) found
  | onward _ reads found ih => exact .onward ih (layout ▸ reads) found

theorem LeadsTo.of_subset (layout : other.layout = document.layout)
    (subset : document.definitions ⊆ other.definitions)
    (h : document.LeadsTo fetcher root f) : other.LeadsTo fetcher root f := by
  obtain ⟨scope, r, met, reads⟩ := h
  exact ⟨scope, r, met.of_subset layout subset, layout ▸ reads⟩

/-! ## Fragments and their targets -/

theorem Meets.isLocated (isLocation : root.IsLocation) (h : document.Meets fetcher root scope r) :
    scope.IsLocated := by
  induction h with
  | own => exact Scope.isLocated_root
  | onward _ reads _ ih =>
    have fit := ih.base isLocation.wellFormed
    exact Scope.isLocated_external (Target.isLocated_of_locate fit reads.located).location

theorem LeadsTo.isLocated (isLocation : root.IsLocation) (h : document.LeadsTo fetcher root f) :
    f.target.IsLocated := by
  obtain ⟨scope, r, met, reads⟩ := h
  have fit := (met.isLocated isLocation).base isLocation.wellFormed
  exact Target.isLocated_of_locate fit reads.located

theorem LeadsTo.read (h : document.LeadsTo fetcher root f) :
    f.target.fragmentOf document.layout (Cache.fetchDocument fetcher 0 f.target.location)
      = .ok (f.node, f.natural) := by
  obtain ⟨scope, r, met, reads⟩ := h
  exact reads.read

/-- A fragment is determined by the key of its target. -/
theorem LeadsTo.eq_of_key (isLocation : root.IsLocation) (hf : document.LeadsTo fetcher root f)
    (hg : document.LeadsTo fetcher root g) (same : f.target.key = g.target.key) : f = g := by
  have sameTarget := Target.eq_of_key (hf.isLocated isLocation) (hg.isLocated isLocation) same
  have read := hf.read
  rw [sameTarget, hg.read] at read
  obtain ⟨node, natural⟩ := Prod.mk.inj (Except.ok.inj read)
  exact Fragment.ext sameTarget node.symm natural.symm

/-- What was read can be compared. -/
theorem LeadsTo.isComparable (h : document.LeadsTo fetcher root f) : f.node.IsComparable := by
  obtain ⟨value, part, fetched, selected, -, source⟩ := Target.eq_ofJson_of_fragmentOf h.read
  rw [source]
  exact (isComparable_ofJson _ part (Target.wellFormed_of_select fetched selected)).1

theorem LeadsTo.alike_symm (h : document.LeadsTo fetcher root f) (alike : f.Alike options g) :
    g.Alike options f := by
  obtain ⟨reuse, hf, hg, same⟩ := alike
  exact ⟨reuse, hg, hf, h.isComparable.symm same⟩

theorem LeadsTo.alike_join {g' : Fragment} (h : document.LeadsTo fetcher root f)
    (alike : f.Alike options g) (alike' : f.Alike options g') : g.Alike options g' := by
  obtain ⟨reuse, -, hg, same⟩ := alike
  obtain ⟨-, -, hg', same'⟩ := alike'
  exact ⟨reuse, hg, hg', h.isComparable.join same same'⟩

/-- A fragment that shows no `$ref` has no references. -/
theorem LeadsTo.allRefs_of_isSelfContained (h : document.LeadsTo fetcher root f)
    (selfContained : f.node.isSelfContained = true) : f.node.AllRefs fun _ => False :=
  Node.allRefs_of_eqv h.isComparable.refl selfContained

/-! ## What is met has a name in the end -/

section Named

variable {copies : List Copy} {done : Definitions}

/-- A reference that was followed has given its fragment a name. -/
theorem Bundled.named_of_reads {q : Pass}
    (h : document.Bundled fetcher options root q copies done) (isPure : fetcher.IsPure)
    (fit : scope.IsLocated) (isStop : .reference scope r ∈ allStops
      (definitionStops (document.setting fetcher options) document.definitions) copies)
    (reads : r.Reads document.layout fetcher root scope f) :
    ∃ name, q.cache.localName? f.target.key = some name := by
  have isRoot : q.cache.root = root := h.merges.cache.root
  obtain ⟨leaves, located, outside, read⟩ := reads
  rw [← isRoot] at located outside
  obtain ⟨value, part, fetched, selected, named, -⟩ := Target.eq_ofJson_of_fragmentOf read
  have isLocated := Target.isLocated_of_locate (fit.base h.sound.root) located
  have fault := RefNode.fault?_of_readable h.sound isPure located isLocated outside fetched selected
    named
  have decided : r.Decided document.layout q.cache scope := h.ledger.decided _ isStop
  rcases decided leaves with reaches | ⟨e, failed⟩
  · obtain ⟨t, located', there⟩ := reaches
    obtain rfl := Except.ok.inj (located.symm.trans located')
    have named := (there.resolve_left fun inRoot => outside inRoot.1).2
    exact Option.isSome_iff_exists.1 named
  · cases fault.symm.trans failed

/-- The source of a copy is the fragment of its key. -/
theorem Bundled.source_eq {q : Pass} (h : document.Bundled fetcher options root q copies done)
    (isPure : fetcher.IsPure) {copy : Copy} (isCopy : copy ∈ copies)
    (hf : document.LeadsTo fetcher root f) (same : copy.target = f.target) :
    copy.source = f.node := by
  obtain ⟨turn, value, part, fetched, selected, source⟩ :=
    ((h.merges.faithful copy isCopy).isRead h.sound).read
  obtain ⟨value', part', fetched', selected', -, source'⟩ :=
    Target.eq_ofJson_of_fragmentOf hf.read
  rw [same] at fetched selected
  obtain rfl : value' = value := Except.ok.inj (fetched'.symm.trans
    ((Cache.fetchDocument_of_isPure isPure 0 turn _).trans fetched))
  obtain rfl : part' = part := Except.ok.inj (selected'.symm.trans selected)
  exact source.trans source'.symm

/-- What was not copied was reused, and has no references. -/
theorem LeadsTo.allRefs_of_notCopied (h : document.LeadsTo fetcher root f) (isPure : fetcher.IsPure)
    (isLocation : root.IsLocation) {name : String}
    (named : (document.lastPass fetcher options root).cache.localName? f.target.key = some name)
    (notCopied : ⟨f.target.key.text, name⟩ ∉ (document.lastPass fetcher options root).merged) :
    f.node.AllRefs fun _ => False := by
  obtain ⟨i, current, node, node', fragment, present, here, -, -, reused⟩ :=
    exists_reused isLocation named notCopied
  have bound := (List.getElem?_eq_some_iff.1 here).1
  obtain ⟨sound, -⟩ :=
    @passAfter_ready fetcher options document root (i + 1) isLocation (Nat.succ_le_of_lt bound)
  obtain ⟨t, outcome, natural, isLocated, same, found, read⟩ := reused.holds
  obtain rfl := Target.eq_of_key isLocated (h.isLocated isLocation) same
  rw [sound.fetched isPure isLocated.location found 0, h.read] at read
  obtain ⟨rfl, -⟩ := Prod.mk.inj (Except.ok.inj read)
  exact h.allRefs_of_isSelfContained reused.selfContained

/-- If nothing was cut, every reference that is met was followed. -/
theorem Meets.mem_allStops
    (bundled : document.Bundled fetcher options root (document.lastPass fetcher options root)
      copies done) (isPure : fetcher.IsPure) (isLocation : root.IsLocation)
    (whole : ∀ scope, ¬ DepthReported (document.setting fetcher options) scope
      (document.lastPass fetcher options root)) (h : document.Meets fetcher root scope r) :
    .reference scope r ∈ allStops
      (definitionStops (document.setting fetcher options) document.definitions) copies := by
  induction h with
  | @own entry place r isEntry found =>
    have isSource : (.root, entry.2) ∈ bundleSources document copies :=
      mem_bundleSources.2 (.inl ⟨entry, isEntry, rfl⟩)
    exact bundled.mem_allStops whole isSource place r found
  | @onward scope r r' f place met reads found ih =>
    have leads : document.LeadsTo fetcher root f := ⟨scope, r, met, reads⟩
    obtain ⟨name, named⟩ := bundled.named_of_reads isPure (met.isLocated isLocation) ih reads
    by_cases copied : ⟨f.target.key.text, name⟩ ∈ (document.lastPass fetcher options root).merged
    · rw [bundled.merges.merged] at copied
      obtain ⟨copy, isCopy, isMerged⟩ := List.mem_map.1 copied
      have same : copy.target = f.target :=
        Target.eq_of_key_text (bundled.merges.faithful copy isCopy).located
          (leads.isLocated isLocation) (congrArg Merged.source isMerged)
      have isSource : (.external f.target.location, f.node) ∈ bundleSources document copies :=
        mem_bundleSources.2 (.inr ⟨copy, isCopy, by
          rw [same, bundled.source_eq isPure isCopy leads same]⟩)
      exact bundled.mem_allStops whole isSource place r' found
    · exact (leads.allRefs_of_notCopied isPure isLocation named copied place r' found).elim

/-- **A pass that cuts nothing off gives every fragment a name** that the document leads to. -/
theorem LeadsTo.named (h : document.LeadsTo fetcher root f) (isPure : fetcher.IsPure)
    (isLocation : root.IsLocation)
    (whole : ∀ scope, ¬ DepthReported (document.setting fetcher options) scope
      (document.lastPass fetcher options root)) :
    ∃ name, (document.lastPass fetcher options root).cache.localName? f.target.key = some name := by
  obtain ⟨scope, r, met, reads⟩ := h
  obtain ⟨copies, done, bundled⟩ := document.lastPass_bundled fetcher options isLocation
  exact bundled.named_of_reads isPure (met.isLocated isLocation)
    (met.mem_allStops bundled isPure isLocation whole) reads

end Named

end Document

end SchemaBundle
