import SchemaBundle.Proofs.Resolve.Growth

/-!
# The account of a walk

A walk has its own stops, and the walks of the fragments that it merges have theirs. `Ledger` says
that these stops account for what the walk did: each location that was asked for is that of a
reference among them, each reference among them was decided, and the complaints that were added are
exactly theirs, one for each that has a fault.

What is wrong with a reference is read off the documents of a cache (`RefNode.fault?`), so the
account can be given by any later cache. Accounts of two walks one after the other add up
(`Ledger.trans`); the account of a merged fragment becomes that of a copy (`Ledger.enclose`).
-/

namespace SchemaBundle

open Walk

/-! ## What is wrong with a reference -/

namespace RefNode

/-- Why a reference cannot be resolved, as far as the documents of a cache tell. -/
def fault? (layout : Layout) (cache : Cache) (scope : Scope) (r : RefNode) :
    Option ResolveError :=
  if r.Leaves scope then
    match Target.locate r.reference (scope.base cache.root) with
    | .error e => some e
    | .ok t =>
      if t.location = cache.root then
        match t.fragment with
        | some _ => none
        | none => some (.malformedReference r.reference .rootWithoutFragment)
      else
        match (Entries.find? t.location.text cache.documents).map (t.fragmentOf layout) with
        | some (.error e) => some e
        | _ => none
  else none

/-- The ways in which a reference can have a fault. -/
inductive Fails (layout : Layout) (cache : Cache) (scope : Scope) (r : RefNode) :
    ResolveError → Prop
  | malformed {e : ResolveError}
    (located : Target.locate r.reference (scope.base cache.root) = .error e) :
    Fails layout cache scope r e
  | wholeRoot {t : Target} (located : Target.locate r.reference (scope.base cache.root) = .ok t)
    (inRoot : t.location = cache.root) (whole : t.fragment = none) :
    Fails layout cache scope r (.malformedReference r.reference .rootWithoutFragment)
  | unreadable {t : Target} {outcome : Except ResolveError Json} {e : ResolveError}
    (located : Target.locate r.reference (scope.base cache.root) = .ok t)
    (outside : t.location ≠ cache.root)
    (found : Entries.find? t.location.text cache.documents = some outcome)
    (failed : t.fragmentOf layout outcome = .error e) :
    Fails layout cache scope r e

variable {layout : Layout} {fetcher : Fetcher} {scope : Scope} {r : RefNode} {c d : Cache}
  {e : ResolveError}

theorem fails_of_fault? (h : r.fault? layout c scope = some e) :
    r.Leaves scope ∧ r.Fails layout c scope e := by
  unfold fault? at h
  split at h
  · rename_i leaves
    refine ⟨leaves, ?_⟩
    split at h
    · rename_i located
      cases h
      exact .malformed located
    · rename_i t located
      split at h
      · rename_i inRoot
        split at h
        · cases h
        · rename_i whole
          cases h
          exact .wholeRoot located inRoot whole
      · rename_i outside
        split at h
        · rename_i read
          cases h
          obtain ⟨outcome, found, failed⟩ := Option.map_eq_some_iff.1 read
          exact .unreadable located outside found failed
        · cases h
  · cases h

theorem fault?_of_fails (leaves : r.Leaves scope) (h : r.Fails layout c scope e) :
    r.fault? layout c scope = some e := by
  unfold fault?
  rw [if_pos leaves]
  cases h with
  | malformed located => simp only [located]
  | wholeRoot located inRoot whole => simp only [located, inRoot, whole, if_true]
  | unreadable located outside found failed =>
    simp only [located, outside, found, failed, if_false, Option.map_some]

/-- A fault stays a fault. -/
theorem Fails.mono (h : r.Fails layout c scope e) (le : c.Le d) : r.Fails layout d scope e := by
  cases h with
  | malformed located => exact .malformed (by rwa [le.root])
  | wholeRoot located inRoot whole =>
    exact .wholeRoot (by rwa [le.root]) (by rwa [le.root]) whole
  | unreadable located outside found failed =>
    exact .unreadable (by rwa [le.root]) (by rwa [le.root]) (le.documents found) failed

theorem fault?_mono (h : r.fault? layout c scope = some e) (le : c.Le d) :
    r.fault? layout d scope = some e :=
  fault?_of_fails (fails_of_fault? h).1 ((fails_of_fault? h).2.mono le)

/-- What has a fault is not resolved. -/
theorem Fails.rewrite_eq (h : r.Fails layout c scope e) (leaves : r.Leaves scope)
    (base : (scope.base c.root).WellFormed) (sound : c.Sound layout fetcher) :
    r.rewrite layout c scope = r.unresolved scope := by
  cases h with
  | malformed located => exact (knows_malformed located c sound (.refl c)).symm
  | wholeRoot located inRoot whole =>
    exact (knows_wholeRoot leaves located inRoot whole c sound (.refl c)).symm
  | unreadable located outside found failed =>
    have isLocated := Target.isLocated_of_locate base located
    exact (knows_unreadable leaves located isLocated outside found failed c sound (.refl c)).symm

/-- What leads somewhere has no fault. -/
theorem fault?_of_reaches (sound : c.Sound layout fetcher) (fit : ∀ {t},
    Target.locate r.reference (scope.base c.root) = .ok t → t.IsLocated)
    (h : r.Reaches scope c) : r.fault? layout c scope = none := by
  cases fault : r.fault? layout c scope with
  | none => rfl
  | some e =>
    obtain ⟨t, located, there⟩ := h
    cases (fails_of_fault? fault).2 with
    | malformed located' => cases located.symm.trans located'
    | wholeRoot located' inRoot whole =>
      obtain rfl := Except.ok.inj (located.symm.trans located')
      simp [inRoot, whole] at there
    | unreadable located' outside found failed =>
      obtain rfl := Except.ok.inj (located.symm.trans located')
      have named := (there.resolve_left fun inRoot => outside inRoot.1).2
      rw [sound.unnamed (fit located) found failed] at named
      cases named

theorem fault?_of_stays (stays : ¬ r.Leaves scope) : r.fault? layout c scope = none := by
  rw [fault?, if_neg stays]

/-- It is known of a reference whether it can be resolved. -/
def Decided (layout : Layout) (cache : Cache) (scope : Scope) (r : RefNode) : Prop :=
  r.Leaves scope → r.Reaches scope cache ∨ ∃ e, r.fault? layout cache scope = some e

theorem Decided.mono (h : r.Decided layout c scope) (le : c.Le d) : r.Decided layout d scope :=
  fun leaves => (h leaves).imp (·.mono le) fun ⟨e, fault⟩ => ⟨e, fault?_mono fault le⟩

end RefNode

/-! ## Complaints -/

/-- A warning about a reference that is not resolved or a subtree that is not looked into, rather
than about a name or a key. -/
def Warning.isComplaint (warning : Warning) : Bool :=
  match warning.kind with
  | .danglingReference _ => false
  | .unmodeledReference _ => false
  | _ => true

theorem Warning.isComplaint_unresolved (reference : String) (e : ResolveError) :
    (Warning.unresolved reference e).isComplaint = true := by
  cases e <;> rfl

/-- The complaints among the warnings of a pass. -/
def Pass.complaints (p : Pass) : List Warning :=
  p.warnings.filter Warning.isComplaint

namespace Stop

/-- A reference that asks for the document at a location. -/
def AsksFor (root location : Url) : Stop → Prop
  | .reference scope r =>
    r.Leaves scope ∧
      ∃ t, Target.locate r.reference (scope.base root) = .ok t ∧ t.location = location
  | .tooDeep _ => False

/-- A stop at which nothing is left open. -/
def Decided (layout : Layout) (cache : Cache) : Stop → Prop
  | .reference scope r => r.Decided layout cache scope
  | .tooDeep _ => True

/-- What is complained about at a stop. -/
def complaint? (setting : Setting) (cache : Cache) : Stop → Option Warning
  | .reference scope r =>
    (r.fault? setting.layout cache scope).map (Warning.unresolved r.reference)
  | .tooDeep scope => some (.tooDeep (scope.base cache.root).text setting.options.maxDepth)

theorem Decided.mono {layout : Layout} {c d : Cache} {stop : Stop} (h : stop.Decided layout c)
    (le : c.Le d) : stop.Decided layout d := by
  cases stop with
  | reference scope r => exact RefNode.Decided.mono h le
  | tooDeep scope => exact h

end Stop

/-! ## The account -/

/-- The stops of the walk of a fragment that was merged. -/
def Copy.stops (copy : Copy) : List Stop :=
  copy.source.stops (.external copy.target.location) copy.room

/-- The stops of a walk, and those of the walks of the fragments that it merged. -/
def allStops (stops : List Stop) (copies : List Copy) : List Stop :=
  stops ++ copies.flatMap Copy.stops

/-- The stops of a walk and of the walks of the copies account for what was done. -/
structure Ledger (setting : Setting) (stops : List Stop) (copies : List Copy) (p q : Pass) :
    Prop where
  asked : ∀ location ∈ q.cache.asked, location ∈ p.cache.asked ∨
    ∃ stop ∈ allStops stops copies, stop.AsksFor q.cache.root location
  decided : ∀ stop ∈ allStops stops copies, stop.Decided setting.layout q.cache
  complaints : ∀ d : Cache, d.Sound setting.layout setting.fetcher → q.cache.Le d →
    q.complaints.Perm
      (p.complaints ++ (allStops stops copies).filterMap (Stop.complaint? setting d))

section Ledger

variable {setting : Setting} {xs ys : List Stop} {copies more : List Copy} {p q s : Pass}
  {scope : Scope} {r : RefNode}

/-- What two walks come to, and what is come to in the fragments of both, comes walk by walk. -/
theorem append_flatMap_perm {α β : Type} (f : α → List β) (xs ys : List β) (as bs : List α) :
    ((xs ++ ys) ++ (as ++ bs).flatMap f).Perm ((xs ++ as.flatMap f) ++ (ys ++ bs.flatMap f)) := by
  rw [List.flatMap_append, List.append_assoc, List.append_assoc]
  refine List.Perm.append_left xs ?_
  rw [← List.append_assoc, ← List.append_assoc]
  exact List.Perm.append_right _ List.perm_append_comm

theorem allStops_append (xs ys : List Stop) (copies more : List Copy) :
    (allStops (xs ++ ys) (copies ++ more)).Perm (allStops xs copies ++ allStops ys more) :=
  append_flatMap_perm Copy.stops xs ys copies more

/-- Nothing was asked for, and nothing complained about. -/
theorem ledger_nil (asked : q.cache.asked = p.cache.asked)
    (complaints : q.complaints = p.complaints) : Ledger setting [] [] p q where
  asked := fun location member => .inl (asked ▸ member)
  decided := by simp [allStops]
  complaints := fun _ _ _ => by simp [allStops, complaints]

/-- The account of two walks, one after the other. -/
theorem Ledger.trans (hpq : Ledger setting xs copies p q) (hqs : Ledger setting ys more q s)
    (le : q.cache.Le s.cache) : Ledger setting (xs ++ ys) (copies ++ more) p s where
  asked := by
    intro location member
    rcases hqs.asked location member with member | ⟨stop, isStop, asks⟩
    · refine (hpq.asked location member).imp_right ?_
      rintro ⟨stop, isStop, asks⟩
      rw [← le.root] at asks
      exact ⟨stop, (allStops_append ..).mem_iff.2 (List.mem_append_left _ isStop), asks⟩
    · exact .inr ⟨stop, (allStops_append ..).mem_iff.2 (List.mem_append_right _ isStop), asks⟩
  decided := by
    intro stop isStop
    rcases List.mem_append.1 ((allStops_append ..).mem_iff.1 isStop) with isStop | isStop
    · exact (hpq.decided stop isStop).mono le
    · exact hqs.decided stop isStop
  complaints := by
    intro d sound later
    have first := hpq.complaints d sound (le.trans later)
    have second := hqs.complaints d sound later
    have both := (allStops_append xs ys copies more).filterMap (Stop.complaint? setting d)
    rw [List.filterMap_append] at both
    refine second.trans ((first.append_right _).trans ?_)
    rw [List.append_assoc]
    exact both.symm.append_left _

/-- The stops of a fragment are accounted for by its copy. -/
theorem Ledger.enclose {copy : Copy} (h : Ledger setting (xs ++ copy.stops) copies p q) :
    Ledger setting xs (copies ++ [copy]) p q := by
  have same : (allStops xs (copies ++ [copy])).Perm (allStops (xs ++ copy.stops) copies) := by
    unfold allStops
    rw [List.flatMap_append, List.flatMap_singleton, List.append_assoc]
    exact List.perm_append_comm.append_left xs
  refine ⟨fun location member => (h.asked location member).imp_right ?_, fun stop isStop => ?_,
    fun d sound later => ?_⟩
  · rintro ⟨stop, isStop, asks⟩
    exact ⟨stop, same.mem_iff.2 isStop, asks⟩
  · exact h.decided stop (same.mem_iff.1 isStop)
  · exact (h.complaints d sound later).trans ((same.filterMap _).symm.append_left _)

/-! ### One stop -/

theorem Pass.complaints_warn {warning : Warning} (h : warning.isComplaint = true) (p : Pass) :
    (p.warn warning).complaints = p.complaints ++ [warning] := by
  simp [complaints, warn, List.filter_append, h]

theorem ledger_tooDeep (setting : Setting) (scope : Scope) (p : Pass) :
    Ledger setting [.tooDeep scope] [] p (reportDepth setting scope p).2 where
  asked := fun _ member => .inl member
  decided := by simp [allStops, Stop.Decided]
  complaints := by
    intro d _ later
    have root : d.root = p.cache.root := later.root
    have isComplaint : Warning.isComplaint
        (.tooDeep (scope.base p.cache.root).text setting.options.maxDepth) = true := rfl
    have warned := Pass.complaints_warn isComplaint p
    simp only [allStops, Stop.complaint?, List.flatMap_nil, List.append_nil,
      List.filterMap_cons, List.filterMap_nil, root]
    exact .of_eq warned

/-- A reference that was decided, with the complaint about it, if any. -/
theorem ledger_reference
    (asked : ∀ location ∈ q.cache.asked, location ∈ p.cache.asked ∨
      (Stop.reference scope r).AsksFor q.cache.root location)
    (decided : r.Decided setting.layout q.cache scope)
    (complaints : ∀ d : Cache, d.Sound setting.layout setting.fetcher → q.cache.Le d →
      q.complaints = p.complaints ++
        ((r.fault? setting.layout d scope).map (Warning.unresolved r.reference)).toList) :
    Ledger setting [.reference scope r] [] p q where
  asked := fun location member => (asked location member).imp_right fun asks =>
    ⟨_, List.mem_singleton_self _, asks⟩
  decided := by
    intro stop isStop
    obtain rfl := List.mem_singleton.1 isStop
    exact decided
  complaints := by
    intro d sound later
    rw [complaints d sound later]
    refine .of_eq ?_
    cases fault : r.fault? setting.layout d scope <;>
      simp [allStops, Stop.complaint?, fault]

/-- A reference that leads somewhere, and is not complained about. -/
theorem ledger_reaches
    (asked : ∀ location ∈ q.cache.asked, location ∈ p.cache.asked ∨
      (Stop.reference scope r).AsksFor q.cache.root location)
    (complaints : q.complaints = p.complaints) (reaches : r.Reaches scope q.cache)
    (fit : ∀ {t}, Target.locate r.reference (scope.base q.cache.root) = .ok t → t.IsLocated) :
    Ledger setting [.reference scope r] [] p q := by
  refine ledger_reference asked (fun _ => .inl reaches) fun d sound later => ?_
  have fit {t : Target} (located : Target.locate r.reference (scope.base d.root) = .ok t) :
      t.IsLocated := fit (by rwa [← later.root])
  rw [RefNode.fault?_of_reaches sound fit (reaches.mono later)]
  simp [complaints]

/-- A reference that failed, and is complained about. -/
theorem ledger_fails {e : ResolveError} (leaves : r.Leaves scope)
    (asked : ∀ location ∈ q.cache.asked, location ∈ p.cache.asked ∨
      (Stop.reference scope r).AsksFor q.cache.root location)
    (complaints : q.complaints = p.complaints) (fails : r.Fails setting.layout q.cache scope e) :
    Ledger setting [.reference scope r] [] p (q.warn (.unresolved r.reference e)) := by
  have fault := RefNode.fault?_of_fails leaves fails
  refine ledger_reference asked (fun _ => .inr ⟨e, fault⟩) fun d _ later => ?_
  rw [RefNode.fault?_mono fault later,
    Pass.complaints_warn (Warning.isComplaint_unresolved r.reference e), complaints]
  rfl

end Ledger

/-! ## Reuse -/

/-- What the fragment of a key was read as, as far as a cache tells. -/
def Cache.Holds (layout : Layout) (cache : Cache) (key : TargetKey) (node : Node) : Prop :=
  ∃ t outcome natural, Target.IsLocated t ∧ t.key = key ∧
    Entries.find? t.location.text cache.documents = some outcome ∧
    t.fragmentOf layout outcome = .ok (node, natural)

theorem Cache.Holds.mono {layout : Layout} {c d : Cache} {key : TargetKey} {node : Node}
    (h : c.Holds layout key node) (le : c.Le d) : d.Holds layout key node := by
  obtain ⟨t, outcome, natural, located, same, found, read⟩ := h
  exact ⟨t, outcome, natural, located, same, le.documents found, read⟩

/-- A fragment without references has the name of a definition that is identical to it. -/
structure Reused (layout : Layout) (key : TargetKey) (name : String) (node present : Node)
    (q : Pass) : Prop where
  holds : q.cache.Holds layout key node
  selfContained : node.isSelfContained = true
  found : Entries.find? name q.definitions = some present
  same : present.eqv node = true

theorem Reused.mono {layout : Layout} {key : TargetKey} {name : String} {node present : Node}
    {q s : Pass} (h : Reused layout key name node present q) (le : q.cache.Le s.cache)
    (kept : q.definitions <+: s.definitions) : Reused layout key name node present s where
  holds := h.holds.mono le
  selfContained := h.selfContained
  found := by
    obtain ⟨more, same⟩ := kept
    rw [← same]
    exact Entries.find?_append_of_some h.found more
  same := h.same

/-! ## Growth with its account -/

/-- The registry grows, everything that was done is accounted for, and a fragment that has a name
now and had none is one that was copied or reused. -/
structure Accounted (setting : Setting) (stops : List Stop) (copies : List Copy) (p q : Pass) :
    Prop extends Grows setting copies p q, Ledger setting stops copies p q where
  reuses : ∀ {key name}, q.cache.localName? key = some name →
    p.cache.localName? key = some name ∨ (∃ copy ∈ copies, copy.target.key = key) ∨
      ∃ node present, Reused setting.layout key name node present q

section Accounted

variable {setting : Setting} {xs ys : List Stop} {copies more : List Copy} {p q s : Pass}

/-- Something was done at a stop, without a copy or a name. -/
theorem accounted_of_names (later : p.Before q) (merged : q.merged = p.merged)
    (definitions : q.definitions = p.definitions)
    (names : q.cache.names = p.cache.names) (ledger : Ledger setting xs [] p q) :
    Accounted setting xs [] p q := by
  have before {key : TargetKey} {name : String} (named : q.cache.localName? key = some name) :
      p.cache.localName? key = some name := by rwa [Cache.localName?, names] at named
  exact ⟨grows_nil later merged definitions fun named => .inl (before named), ledger,
    fun named => .inl (before named)⟩

theorem accounted_refl (p : Pass) : Accounted setting [] [] p p :=
  accounted_of_names (.refl p) rfl rfl rfl (ledger_nil rfl rfl)

theorem Accounted.trans (hpq : Accounted setting xs copies p q)
    (hqs : Accounted setting ys more q s) :
    Accounted setting (xs ++ ys) (copies ++ more) p s where
  toGrows := hpq.toGrows.trans hqs.toGrows
  toLedger := hpq.toLedger.trans hqs.toLedger hqs.toBefore.cache
  reuses := by
    intro key name named
    rcases hqs.reuses named with named | ⟨copy, member, same⟩ | reused
    · rcases hpq.reuses named with named | ⟨copy, member, same⟩ | ⟨node, present, reused⟩
      · exact .inl named
      · exact .inr (.inl ⟨copy, List.mem_append_left _ member, same⟩)
      · exact .inr (.inr ⟨node, present,
          reused.mono hqs.toBefore.cache ⟨_, hqs.definitions.symm⟩⟩)
    · exact .inr (.inl ⟨copy, List.mem_append_right _ member, same⟩)
    · exact .inr (.inr reused)

end Accounted

end SchemaBundle
