import SchemaBundle.Proofs.Resolve.Bookkeeping

/-!
# The names do not hang on the order of the definitions

The definitions of a document in another order are walked in another order, so that fragments of the
same natural name may get each other's names. Both passes keep books of the same fragments first
come, first served, and so the bundles have the same names (`resolve_names_of_isReordering`). It is
required that no series of names runs into another one and that a fragment which is identical to
definitions of the document meets one of these before any free name (`Document.IsFair`); without
either the names may differ (`resolve_names_differ`).
-/

namespace SchemaBundle

/-! ## Books and orders -/

section Perm

variable {options : Options} {definitions definitions' : Definitions} {book : List Naming}
  {n : Naming} {name : String} {f : Fragment} {k : Nat}

theorem taken_iff_of_perm (perm : definitions.Perm definitions') :
    Taken definitions book name ↔ Taken definitions' book name :=
  or_congr_left (perm.map Prod.fst).mem_iff

theorem shared_iff_of_perm (perm : definitions.Perm definitions') :
    Shared options definitions book name f ↔ Shared options definitions' book name f := by
  unfold Shared Fragment.Matches
  simp only [perm.mem_iff]

/-- The namings of a book are given in turn whatever the order of the definitions is. -/
theorem FirstCome.of_perm (h : FirstCome options definitions book)
    (perm : definitions.Perm definitions') : FirstCome options definitions' book := by
  induction h with
  | nil => exact .nil
  | @cons book n k earlier next ih =>
    refine .cons (k := k) ih
      { new := next.new
        isCandidate := next.isCandidate
        passed := fun i below => ?_
        free := fun isCopy => ?_
        shared := fun isReused => ?_ }
    · rw [← taken_iff_of_perm perm, ← shared_iff_of_perm perm]
      exact next.passed i below
    · rw [← taken_iff_of_perm perm]
      exact next.free isCopy
    · rw [← shared_iff_of_perm perm]
      exact next.shared isReused

end Perm

namespace Document

variable {fetcher : Fetcher} {options : Options} {document : Document} {root : Url}

/-- The names of the fragments that a document leads to do not hang on who comes first. -/
structure IsFair (fetcher : Fetcher) (options : Options) (document : Document) (root : Url) :
    Prop where
  /-- No series of names gets as far as a natural name of other fragments. -/
  uncrowded : Uncrowded options document.definitions (document.LeadsTo fetcher root)
  /-- A fragment that is identical to a definition with one of its names meets such a definition
  before any free name. -/
  home : ∀ f k, document.LeadsTo fetcher root f →
    f.Matches options document.definitions (Pass.candidate f.natural k) →
      f.AtHome options document.definitions

/-- Another document has the same definitions, in any order. -/
structure IsReordering (other document : Document) : Prop where
  layout : other.layout = document.layout
  rest : other.rest = document.rest
  definitions : other.definitions.Perm document.definitions

/-- A book does not hang on the order of the definitions. -/
theorem IsBook.of_isReordering {other : Document} {book : List Naming} {q : Pass}
    (h : other.IsBook fetcher options root book q) (same : other.IsReordering document) :
    document.IsBook fetcher options root book q where
  firstCome := h.firstCome.of_perm same.definitions
  reached n member := (h.reached n member).of_subset same.layout.symm same.definitions.subset
  full f leads := h.full f (leads.of_subset same.layout same.definitions.symm.subset)
  keys name := (h.keys name).trans (taken_iff_of_perm same.definitions)

/-- Two passes with books give the same names. -/
theorem IsBook.keys_subset {book book' : List Naming} {q q' : Pass}
    (h : document.IsBook fetcher options root book q)
    (h' : document.IsBook fetcher options root book' q')
    (fair : document.IsFair fetcher options root) :
    Entries.keys q'.definitions ⊆ Entries.keys q.definitions := by
  intro name present
  refine (h.keys name).2 (((h'.keys name).1 present).imp_right ?_)
  rintro ⟨n, member, isCopy, rfl⟩
  exact h.firstCome.names_subset h'.firstCome h.reached h'.reached h.full fair.uncrowded fair.home
    (fun _ _ leads _ alike => leads.alike_symm alike)
    (fun _ _ _ leads _ _ alike alike' => leads.alike_join alike alike') member isCopy

end Document

/-- **The names do not hang on the order of the definitions.** Two passes that cut nothing off end
with the same names, for a document whose names are fair, and as long as no fragment is given the
name of the definition that is being walked. -/
theorem resolve_names_of_isReordering {fetcher : Fetcher} (isPure : fetcher.IsPure)
    {options : Options} {document other : Document} {root : Url}
    (distinct : document.definitions.Distinct) (same : other.IsReordering document)
    (known : options.rootUrl = .ok root) :
    ∃ result result', document.resolve fetcher options = .ok result ∧
      other.resolve fetcher options = .ok result' ∧
      (result.report.NothingCut → result'.report.NothingCut →
        document.IsFair fetcher options root → document.SparesCurrent fetcher options root →
        other.SparesCurrent fetcher options root →
        (Entries.keys result.document.definitions).Perm
          (Entries.keys result'.document.definitions)) := by
  have isLocation := Options.isLocation_of_rootUrl known
  have distinct' : other.definitions.Distinct :=
    ((same.definitions.map Prod.fst).nodup_iff).2 distinct
  refine ⟨_, _, document.resolve_of_rootUrl fetcher options known,
    other.resolve_of_rootUrl fetcher options known, fun whole whole' fair spares spares' => ?_⟩
  obtain ⟨book, isBook⟩ := Document.exists_book isPure isLocation distinct spares
    fun _ => not_depthReported whole
  obtain ⟨book', isBook'⟩ := Document.exists_book isPure isLocation distinct' spares'
    fun _ => not_depthReported whole'
  have isBook' := isBook'.of_isReordering same
  have final (document : Document) (distinct : document.definitions.Distinct) :
      (document.lastPass fetcher options root).definitions.Distinct :=
    Document.passAfter_distinct isLocation distinct (Nat.le_refl _)
  rw [List.perm_ext_iff_of_nodup (final document distinct) (final other distinct')]
  exact fun name => ⟨fun present => isBook'.keys_subset isBook fair present,
    fun present => isBook.keys_subset isBook' fair present⟩

/-! ## Definitions in their order and backwards -/

namespace Sample

/-- Three documents, two of which have the same `X`. -/
def shelf : Fetcher :=
  .inMemory [("file:///a.yaml", ("definitions:\n  X: true\n").toUTF8.toList),
    ("file:///b.yaml", ("definitions:\n  X: false\n").toUTF8.toList),
    ("file:///c.yaml", ("definitions:\n  X: true\n  X_1: 0\n").toUTF8.toList)]

/-- A definition that stands in another document. -/
def elsewhere (reference : String) : Node :=
  .ref ⟨reference, .relativeFile, []⟩

/-- A document that refers to all of them. -/
def shared : Document :=
  ⟨.swagger2, [("A", elsewhere "a.yaml#/definitions/X"), ("B", elsewhere "b.yaml#/definitions/X"),
    ("C", elsewhere "c.yaml#/definitions/X")], [("definitions", .null)]⟩

/-- A document in which the series of `X` runs into that of `X_1`. -/
def crowded : Document :=
  ⟨.swagger2, [("A", elsewhere "a.yaml#/definitions/X"), ("B", elsewhere "b.yaml#/definitions/X"),
    ("C", elsewhere "c.yaml#/definitions/X_1")], [("definitions", .null)]⟩

/-- A document with a definition that is identical to a fragment, but only under its third name. -/
def gapped : Document :=
  ⟨.swagger2, [("X", .plain (.int 0)), ("X_2", .plain (.bool true)),
    ("A", elsewhere "a.yaml#/definitions/X"), ("B", elsewhere "b.yaml#/definitions/X")],
    [("definitions", .null)]⟩

end Sample

/-- A document with its definitions backwards. -/
def Document.backwards (document : Document) : Document :=
  { document with definitions := document.definitions.reverse }

theorem Document.isReordering_backwards (document : Document) :
    document.backwards.IsReordering document :=
  ⟨rfl, rfl, List.reverse_perm _⟩

theorem Document.cache_lastPass {fetcher : Fetcher} {options : Options} {document : Document}
    {root : Url} {result : Resolved} (known : options.rootUrl = .ok root)
    (resolved : document.resolve fetcher options = .ok result) :
    (document.lastPass fetcher options root).cache = result.cache := by
  rw [document.resolve_of_rootUrl fetcher options known, Except.ok.injEq] at resolved
  rw [← resolved]

theorem Document.not_depthReported_lastPass {fetcher : Fetcher} {options : Options}
    {document : Document} {root : Url} {result : Resolved} (known : options.rootUrl = .ok root)
    (resolved : document.resolve fetcher options = .ok result) (whole : result.report.NothingCut)
    (scope : Scope) : ¬ DepthReported (document.setting fetcher options) scope
      (document.lastPass fetcher options root) := by
  rw [document.resolve_of_rootUrl fetcher options known, Except.ok.injEq] at resolved
  subst resolved
  exact not_depthReported whole

namespace Sample

theorem rootUrl_default : Options.default.rootUrl = .ok root := rfl

/-- In either order, the fragments of the sample are called `X` and `X_1`. -/
def NamedX (result : Resolved) : Prop :=
  result.cache.names.map (fun entry => (entry.1.fragment, entry.2))
    = [("/definitions/X", "X"), ("/definitions/X", "X_1"), ("/definitions/X", "X")]

variable {document : Document} {result : Resolved} {f : Fragment}

theorem NamedX.of_mem (h : NamedX result) {entry : TargetKey × String}
    (member : entry ∈ result.cache.names) :
    entry.1.fragment = "/definitions/X" ∧ entry.2 ∈ ["X", "X_1"] := by
  have listed := List.mem_map_of_mem (f := fun entry => (entry.1.fragment, entry.2)) member
  rw [h] at listed
  simp only [List.mem_cons, Prod.mk.injEq, List.not_mem_nil, or_false] at listed ⊢
  tauto

theorem NamedX.sparesCurrent (h : NamedX result)
    (resolved : document.resolve shelf .default = .ok result)
    (absent : ∀ name ∈ ["X", "X_1"], name ∉ Entries.keys document.definitions) :
    document.SparesCurrent shelf .default root := by
  refine Document.sparesCurrent_of_notMem fun entry member => ?_
  rw [Document.cache_lastPass rootUrl_default resolved] at member
  exact absent _ (h.of_mem member).2

theorem NamedX.natural_eq (h : NamedX result)
    (resolved : document.resolve shelf .default = .ok result) (whole : result.report.NothingCut)
    (leads : document.LeadsTo shelf root f) : f.natural = "X" := by
  obtain ⟨name, named⟩ := leads.named (Fetcher.isPure_ofFunction _)
    (Options.isLocation_of_rootUrl rootUrl_default)
    (Document.not_depthReported_lastPass rootUrl_default resolved whole)
  rw [Document.cache_lastPass rootUrl_default resolved] at named
  have fragment : f.target.fragment.getD "" = "/definitions/X" :=
    (h.of_mem (Cache.mem_names named)).1
  have pointer : f.target.fragment = some "/definitions/X" := by
    cases isFragment : f.target.fragment with
    | none => simp [isFragment] at fragment
    | some g => simpa [isFragment] using fragment
  obtain ⟨-, -, -, -, natural, -⟩ := Target.eq_ofJson_of_fragmentOf leads.read
  rw [Target.definitionName?, pointer] at natural
  have last : Pointer.lastSegment? "/definitions/X" = some "X" := by decide
  simp only [Option.bind_some, last] at natural
  exact (Option.some.inj natural).symm

theorem NamedX.isFair (h : NamedX result) (resolved : shared.resolve shelf .default = .ok result)
    (whole : result.report.NothingCut) : shared.IsFair shelf .default root where
  uncrowded := uncrowded_of_noUnderscore fun f leads => by
    rw [h.natural_eq resolved whole leads]
    decide
  home := by
    intro f k leads identical
    have listed := identical.mem_keys
    rw [h.natural_eq resolved whole leads] at listed
    have others : ∀ name ∈ Entries.keys shared.definitions, name.toList.head? ≠ some 'X' := by
      decide
    refine absurd ?_ (others _ listed)
    unfold Pass.candidate
    split <;> simp

end Sample

/-- Three fragments with two names between them. Two of the fragments are identical, and which of
them is copied hangs on the order. -/
theorem resolve_names_of_isReordering_shared :
    Sample.shelf.IsPure ∧ Sample.shared.definitions.Distinct ∧
      Sample.shared.backwards.IsReordering Sample.shared ∧
      Options.default.rootUrl = .ok Sample.root ∧
      ∃ result result', Sample.shared.resolve Sample.shelf .default = .ok result ∧
        Sample.shared.backwards.resolve Sample.shelf .default = .ok result' ∧
        result.report.NothingCut ∧ result'.report.NothingCut ∧
        Sample.shared.IsFair Sample.shelf .default Sample.root ∧
        Sample.shared.SparesCurrent Sample.shelf .default Sample.root ∧
        Sample.shared.backwards.SparesCurrent Sample.shelf .default Sample.root ∧
        result.report.merged = [⟨"file:///a.yaml#/definitions/X", "X"⟩,
          ⟨"file:///b.yaml#/definitions/X", "X_1"⟩] ∧
        result'.report.merged = [⟨"file:///c.yaml#/definitions/X", "X"⟩,
          ⟨"file:///b.yaml#/definitions/X", "X_1"⟩] ∧
        (Entries.keys result.document.definitions).Perm
          (Entries.keys result'.document.definitions) := by
  have isPure : Sample.shelf.IsPure := Fetcher.isPure_ofFunction _
  have distinct : Sample.shared.definitions.Distinct := by
    unfold Entries.Distinct
    decide
  have same := Sample.shared.isReordering_backwards
  have run : (Sample.shared.resolve Sample.shelf .default).toOption.map (fun result =>
      (result.report.warnings.map Warning.kind, result.report.merged,
        result.cache.names.map fun entry => (entry.1.fragment, entry.2)))
      = some ([], [⟨"file:///a.yaml#/definitions/X", "X"⟩,
          ⟨"file:///b.yaml#/definitions/X", "X_1"⟩],
        [("/definitions/X", "X"), ("/definitions/X", "X_1"), ("/definitions/X", "X")]) := by
    decide +kernel
  have run' : (Sample.shared.backwards.resolve Sample.shelf .default).toOption.map (fun result =>
      (result.report.warnings.map Warning.kind, result.report.merged,
        result.cache.names.map fun entry => (entry.1.fragment, entry.2)))
      = some ([], [⟨"file:///c.yaml#/definitions/X", "X"⟩,
          ⟨"file:///b.yaml#/definitions/X", "X_1"⟩],
        [("/definitions/X", "X"), ("/definitions/X", "X_1"), ("/definitions/X", "X")]) := by
    decide +kernel
  obtain ⟨result, resolved, facts⟩ := exists_of_toOption_map run
  obtain ⟨result', resolved', facts'⟩ := exists_of_toOption_map run'
  simp only [Prod.mk.injEq] at facts facts'
  obtain ⟨kinds, merged, named⟩ := facts
  obtain ⟨kinds', merged', named'⟩ := facts'
  have whole := Report.nothingCut_of_kinds kinds (by simp)
  have whole' := Report.nothingCut_of_kinds kinds' (by simp)
  have named : Sample.NamedX result := named
  have named' : Sample.NamedX result' := named'
  have fair := named.isFair resolved whole
  have spares := named.sparesCurrent resolved (by decide)
  have spares' := named'.sparesCurrent resolved' (by decide)
  obtain ⟨_, _, first, second, perm⟩ :=
    resolve_names_of_isReordering isPure distinct same Sample.rootUrl_default
  obtain rfl := Except.ok.inj (resolved.symm.trans first)
  obtain rfl := Except.ok.inj (resolved'.symm.trans second)
  exact ⟨isPure, distinct, same, Sample.rootUrl_default, _, _, resolved, resolved', whole, whole',
    fair, spares, spares', merged, merged', perm whole whole' fair spares spares'⟩

/-- Two passes over the same definitions in different orders that cut nothing off end with different
names. -/
def Document.NamesHangOnOrder (fetcher : Fetcher) (options : Options) (document : Document) :
    Prop :=
  ∃ other result result', Document.IsReordering other document ∧
    document.resolve fetcher options = .ok result ∧ other.resolve fetcher options = .ok result' ∧
    result.report.NothingCut ∧ result'.report.NothingCut ∧
    ¬ (Entries.keys result.document.definitions).Perm (Entries.keys result'.document.definitions)

/-- The names of two passes tell. -/
theorem Document.namesHangOnOrder_of_backwards {fetcher : Fetcher} {options : Options}
    {document : Document} {names names' : List String}
    (run : (document.resolve fetcher options).toOption.map (fun result =>
      (result.report.warnings.map Warning.kind, Entries.keys result.document.definitions))
        = some ([], names))
    (run' : (document.backwards.resolve fetcher options).toOption.map (fun result =>
      (result.report.warnings.map Warning.kind, Entries.keys result.document.definitions))
        = some ([], names'))
    (differ : ¬ names.Perm names') : document.NamesHangOnOrder fetcher options := by
  obtain ⟨result, resolved, facts⟩ := exists_of_toOption_map run
  obtain ⟨result', resolved', facts'⟩ := exists_of_toOption_map run'
  obtain ⟨kinds, rfl⟩ := Prod.mk.inj facts
  obtain ⟨kinds', rfl⟩ := Prod.mk.inj facts'
  exact ⟨_, result, result', document.isReordering_backwards, resolved, resolved',
    Report.nothingCut_of_kinds kinds (by simp), Report.nothingCut_of_kinds kinds' (by simp), differ⟩

theorem Sample.names_crowded : Sample.crowded.NamesHangOnOrder Sample.shelf .default := by
  have run : (Sample.crowded.resolve Sample.shelf .default).toOption.map (fun result =>
      (result.report.warnings.map Warning.kind, Entries.keys result.document.definitions))
      = some ([], ["A", "B", "C", "X", "X_1", "X_1_1"]) := by
    decide +kernel
  have run' : (Sample.crowded.backwards.resolve Sample.shelf .default).toOption.map (fun result =>
      (result.report.warnings.map Warning.kind, Entries.keys result.document.definitions))
      = some ([], ["C", "B", "A", "X_1", "X", "X_2"]) := by
    decide +kernel
  exact Document.namesHangOnOrder_of_backwards run run' (by decide)

theorem Sample.names_gapped : Sample.gapped.NamesHangOnOrder Sample.shelf .default := by
  have run : (Sample.gapped.resolve Sample.shelf .default).toOption.map (fun result =>
      (result.report.warnings.map Warning.kind, Entries.keys result.document.definitions))
      = some ([], ["X", "X_2", "A", "B", "X_1", "X_3"]) := by
    decide +kernel
  have run' : (Sample.gapped.backwards.resolve Sample.shelf .default).toOption.map (fun result =>
      (result.report.warnings.map Warning.kind, Entries.keys result.document.definitions))
      = some ([], ["B", "A", "X_2", "X", "X_1"]) := by
    decide +kernel
  exact Document.namesHangOnOrder_of_backwards run run' (by decide)

/-- The names may hang on the order where a series of names runs into another one, and where a
fragment is identical to a definition behind a free name. -/
theorem resolve_names_differ :
    Sample.shelf.IsPure ∧
      (Sample.crowded.definitions.Distinct ∧
        Sample.crowded.NamesHangOnOrder Sample.shelf .default) ∧
      Sample.gapped.definitions.Distinct ∧
        Sample.gapped.NamesHangOnOrder Sample.shelf .default := by
  refine ⟨Fetcher.isPure_ofFunction _, ⟨?_, Sample.names_crowded⟩, ?_, Sample.names_gapped⟩
  · unfold Entries.Distinct
    decide
  · unfold Entries.Distinct
    decide

end SchemaBundle
