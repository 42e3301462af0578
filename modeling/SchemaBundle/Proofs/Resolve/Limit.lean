import SchemaBundle.Proofs.Resolve.Copies
import SchemaBundle.Proofs.Resolve.Faithful

/-!
# The depth limit is only a guard

The limit is asked only where a walk decides whether to look into a schema, and a schema that is
refused leaves a warning. So a run that refuses nothing is a run with any greater limit too, or from
any lesser depth, step by step and through the same passes (`Runs.raise`); only the depths and the
rooms in its history are others. A pass that reports nothing about depth is therefore the same with
every greater limit: its document, its report, and what it asks for (`resolve_of_maxDepth_le`).
-/

namespace SchemaBundle

open Walk

/-- The same options with another depth limit. -/
def Options.withLimit (options : Options) (limit : Nat) : Options :=
  { options with maxDepth := limit }

/-- The same setting with another depth limit. -/
def Setting.withLimit (setting : Setting) (limit : Nat) : Setting :=
  { setting with options := setting.options.withLimit limit }

/-! ## One reference -/

section Reference

variable {setting : Setting} {visit : Visit} {scope : Scope} {r r' : RefNode} {p q : Pass}
  (limit : Nat)

/-- The limit has no part in merging a fragment, the walk of the fragment apart. -/
theorem Walk.Merging.withLimit {reference : String} {answer : Except ResolveError String}
    (h : Merging setting visit scope reference p answer q) :
    Merging (setting.withLimit limit) visit scope reference p answer q := by
  let raised := setting.withLimit limit
  cases h with
  | malformed located => exact .malformed located
  | wholeRoot located inRoot whole => exact .wholeRoot located inRoot whole
  | backToRoot located inRoot pointer => exact .backToRoot located inRoot pointer
  | known located outside named =>
    exact @Merging.known raised _ _ _ _ _ _ located outside named
  | unreadable located outside unnamed failed => exact .unreadable located outside unnamed failed
  | reused located outside unnamed read placed =>
    exact @Merging.reused raised _ _ _ _ _ _ _ _ located outside unnamed read placed
  | merged located outside unnamed read placed visited =>
    exact @Merging.merged raised _ _ _ _ _ _ _ _ _ _ located outside unnamed read placed visited

theorem Walk.Follows.withLimit (h : Follows setting visit scope r p r' q) :
    Follows (setting.withLimit limit) visit scope r p r' q := by
  cases h with
  | kept stays => exact @Follows.kept (setting.withLimit limit) _ _ _ _ stays
  | resolved leaves merging => exact .resolved leaves (merging.withLimit limit)
  | failed leaves merging => exact .failed leaves (merging.withLimit limit)

theorem Walk.Opens.withLimit {t : Target} {node : Node} {name : String}
    (h : Opens setting scope r p t node name) :
    Opens (setting.withLimit limit) scope r p t node name :=
  ⟨h.leaves, h.located, h.outside, h.unnamed, h.read⟩

theorem Walk.Quiet.withLimit (h : Quiet setting scope r p r' q) :
    Quiet (setting.withLimit limit) scope r p r' q where
  follows visit := (h.follows visit).withLimit limit
  opensNone t node name opens :=
    h.opensNone t node name ⟨opens.leaves, opens.located, opens.outside, opens.unnamed, opens.read⟩

end Reference

/-! ## Runs -/

/-- Nothing was refused in a history. -/
def Unrefused (events : List Event) : Prop :=
  ∀ depth scope, .refused depth scope ∉ events

theorem unrefused_append {events more : List Event} :
    Unrefused (events ++ more) ↔ Unrefused events ∧ Unrefused more := by
  simp only [Unrefused, List.mem_append, not_or, forall_and]

section Runs

variable {setting : Setting} {depth limit : Nat} {scope : Scope} {p q : Pass} {events : List Event}

/-- **A run that refuses nothing is a run with any greater limit**, and from any lesser depth: what
counts are the levels in between. -/
theorem Runs.raise {xs xs' : List Part} (h : Runs setting depth scope xs p xs' q events)
    (all : Unrefused events) {start : Nat}
    (le : setting.options.maxDepth + start ≤ limit + depth) :
    ∃ events', Runs (setting.withLimit limit) start scope xs p xs' q events' := by
  induction h generalizing start with
  | nil => exact ⟨[], .nil⟩
  | cons _ _ first rest =>
    obtain ⟨here, later⟩ := unrefused_append.1 all
    obtain ⟨events, first⟩ := first here le
    obtain ⟨more, rest⟩ := rest later le
    exact ⟨events ++ more, .cons first rest⟩
  | @looked depth scope a a' p q events within _ hollow ih =>
    have within : start ≤ limit := by omega
    have below : setting.options.maxDepth + (start + a.drop) ≤ limit + (depth + a.drop) := by omega
    obtain ⟨events, inside⟩ :=
      ih (fun depth scope refused => all depth scope (List.mem_cons_of_mem _ refused)) below
    exact ⟨.looked start :: events, .looked within inside hollow⟩
  | @refused depth scope => exact absurd (List.mem_singleton_self _) (all depth scope)
  | followed quiet => exact ⟨_, .followed (quiet.withLimit limit)⟩
  | @opened depth scope r t node node' name p q events opens _ ih =>
    have below : setting.options.maxDepth + (start + 1) ≤ limit + (depth + 1) := by omega
    obtain ⟨events, inside⟩ := ih (fun depth scope refused =>
      all depth scope (List.mem_cons_of_mem _ (List.mem_append_left _ refused))) below
    have opens := opens.withLimit limit
    exact ⟨_, .opened opens inside⟩

/-- What is refused is reported. -/
theorem Trace.reports (h : Trace setting events p q) {depth : Nat} {scope : Scope}
    (refused : .refused depth scope ∈ events) : DepthReported setting scope q := by
  obtain ⟨earlier, later, rfl⟩ := List.append_of_mem refused
  obtain ⟨before, after, -, here, rest⟩ := h.leads
  have reported : DepthReported setting scope after := by
    cases here
    exact List.mem_append_right _ (List.mem_singleton_self _)
  exact reported.mono rest.before

theorem Sweeps.raise {n : Nat} (h : Sweeps setting p n q events) (all : Unrefused events)
    (le : setting.options.maxDepth ≤ limit) :
    ∃ events', Sweeps (setting.withLimit limit) p n q events' := by
  induction h with
  | zero => exact ⟨[], .zero⟩
  | succ _ here inside ih =>
    obtain ⟨earlier, later⟩ := unrefused_append.1 all
    obtain ⟨events, before⟩ := ih earlier
    obtain ⟨more, inside⟩ := inside.raise (fun depth scope refused =>
      later depth scope (List.mem_cons_of_mem _ (List.mem_append_left _ refused)))
      (Nat.add_le_add_right le 0)
    exact ⟨_, .succ before here inside⟩

end Runs

/-! ## Documents -/

/-- **The depth limit is only a guard.** If a pass reports nothing about depth, the limit may be
raised, and the outcome is the same: the document, the report with its warnings, its merged
definitions and its count of requests, and the cache with the locations that were asked for, in
order. -/
theorem resolve_of_maxDepth_le {fetcher : Fetcher} {options : Options} {document : Document}
    {limit : Nat}
    (whole : ∀ result, document.resolve fetcher options = .ok result → result.report.NothingCut)
    (le : options.maxDepth ≤ limit) :
    document.resolve fetcher (options.withLimit limit) = document.resolve fetcher options := by
  have refused {options : Options} {e : ResolveError} (known : options.rootUrl = .error e) :
      document.resolve fetcher options = .error e := by
    rw [Document.resolve, known]
    rfl
  cases known : options.rootUrl with
  | error e =>
    have known' : (options.withLimit limit).rootUrl = .error e := known
    rw [refused known, refused known']
  | ok root =>
    have known' : (options.withLimit limit).rootUrl = .ok root := known
    have resolved := document.resolve_of_rootUrl fetcher options known
    obtain ⟨events, run⟩ :=
      document.exists_run fetcher options (Options.isLocation_of_rootUrl known)
    have all : Unrefused events := fun depth scope refused =>
      not_depthReported (whole _ resolved) (run.trace.reports refused)
    obtain ⟨events', run'⟩ := Sweeps.raise run all le
    have same : document.lastPass fetcher options root
        = document.lastPass fetcher (options.withLimit limit) root := Document.Run.unique run'
    rw [resolved, document.resolve_of_rootUrl fetcher _ known', same]

/-- The cycle of the sample is four levels deep. A limit of four is enough for it, and with any
greater one the pass is the same. -/
theorem resolve_of_maxDepth_le_four : (Options.default.withLimit 4).maxDepth ≤ 1000 ∧
    ∃ result, Sample.document.resolve Sample.fetcher (Options.default.withLimit 4) = .ok result ∧
      result.report.NothingCut ∧ result.report.merged.length = 2 ∧
      Sample.document.resolve Sample.fetcher (Options.default.withLimit 1000) = .ok result := by
  have le : (Options.default.withLimit 4).maxDepth ≤ 1000 := by decide
  have run : (Sample.document.resolve Sample.fetcher (Options.default.withLimit 4)).toOption.map
      (fun result => (result.report.warnings, result.report.merged.length)) = some ([], 2) := by
    decide +kernel
  obtain ⟨result, resolved, facts⟩ := exists_of_toOption_map run
  obtain ⟨silent, length⟩ := Prod.mk.inj facts
  have whole : result.report.NothingCut := by
    rw [Report.NothingCut, silent]
    exact fun warning reported => absurd reported List.not_mem_nil
  have wholeEach : ∀ other, Sample.document.resolve Sample.fetcher
      (Options.default.withLimit 4) = .ok other → other.report.NothingCut :=
    fun other resolved' => Except.ok.inj (resolved.symm.trans resolved') ▸ whole
  have same := resolve_of_maxDepth_le wholeEach le
  exact ⟨le, result, resolved, whole, length, same.trans resolved⟩

end SchemaBundle
