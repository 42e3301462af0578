import SchemaBundle.Proofs.Resolve.Positions
import SchemaBundle.Proofs.Resolve.Requests
import SchemaBundle.Proofs.Schema.SelfContained

/-!
# Passes with nothing to do

A reference of the root document is idle if it stays in the document or misses its target: what the
fetcher has at the location is no document, or has nothing at the pointer. The law `quiet` says that
a walk that meets idle references only gives no name to any fragment, as long as the fetcher does
not change its mind. The idle references are known before the walk, since they are among its stops.

So a document with idle references only is left as it is, nothing is merged, and what is asked for
are the locations of references that miss (`Document.resolve_of_idle`). It does not matter how deep
the references stand: those that are out of reach stay as they are, too.
-/

namespace SchemaBundle

open Walk

/-! ## Idle references -/

/-- A reference of the document at `root` leads out of it to something that is not there. -/
structure RefNode.Misses (layout : Layout) (fetcher : Fetcher) (root : Url) (r : RefNode)
    (t : Target) : Prop where
  located : Target.locate r.reference root = .ok t
  outside : t.location ≠ root
  fails : ∃ e, t.fragmentOf layout (Cache.fetchDocument fetcher 0 t.location) = .error e

/-- A reference of the root document that stays in it or misses. -/
def RefNode.IsIdle (layout : Layout) (fetcher : Fetcher) (root : Url) (r : RefNode) : Prop :=
  r.Leaves .root → ∃ t, r.Misses layout fetcher root t

/-- A stop at which there is nothing to do. -/
def Stop.IsIdle (layout : Layout) (fetcher : Fetcher) (root : Url) : Stop → Prop
  | .reference scope r => scope = .root ∧ r.IsIdle layout fetcher root
  | .tooDeep _ => True

/-- Every reference of the registry is idle. -/
def Document.IsIdle (fetcher : Fetcher) (root : Url) (document : Document) : Prop :=
  ∀ entry ∈ document.definitions, entry.2.AllRefs (RefNode.IsIdle document.layout fetcher root)

/-- The stops of a definition are as idle as its references. -/
theorem Node.isIdle_of_mem_stops {layout : Layout} {fetcher : Fetcher} {root : Url} {node : Node}
    (idle : node.AllRefs (RefNode.IsIdle layout fetcher root)) {room : Nat} {stop : Stop}
    (h : stop ∈ node.stops .root room) : stop.IsIdle layout fetcher root := by
  cases Node.isAt_of_mem_stops h with
  | tooDeep => trivial
  | reference place found => exact ⟨rfl, idle place _ found⟩

/-! ## The walk of idle references -/

/-- A pass over the document at `root` in which no fragment has a name. -/
structure Pass.Waits (layout : Layout) (fetcher : Fetcher) (root : Url) (p : Pass) : Prop where
  sound : p.cache.Sound layout fetcher
  root : p.cache.root = root
  names : p.cache.names = []

section Waits

variable {layout : Layout} {fetcher : Fetcher} {root : Url} {p q : Pass} {t : Target} {r : RefNode}

namespace Pass.Waits

theorem congr (h : p.Waits layout fetcher root) (same : q.cache = p.cache) :
    q.Waits layout fetcher root where
  sound := by rw [same]; exact h.sound
  root := by rw [same]; exact h.root
  names := by rw [same]; exact h.names

theorem unnamed (h : p.Waits layout fetcher root) (key : TargetKey) :
    p.cache.localName? key = none := by
  rw [Cache.localName?, h.names]
  rfl

theorem loaded (h : p.Waits layout fetcher root) (isLocation : t.location.IsLocation) :
    (p.loaded fetcher t.location).Waits layout fetcher root where
  sound := h.sound.load isLocation
  root := (Cache.root_load ..).trans h.root
  names := (Cache.names_load ..).trans h.names

end Pass.Waits

/-- A target that is missed cannot be read, whenever its document is asked for. -/
theorem RefNode.Misses.not_read (isPure : fetcher.IsPure) (h : r.Misses layout fetcher root t)
    (sound : p.cache.Sound layout fetcher) (isLocation : t.location.IsLocation)
    {fragment : Node × String} :
    t.fragmentOf layout (p.cache.load fetcher t.location).1 ≠ .ok fragment := by
  intro read
  obtain ⟨e, fails⟩ := h.fails
  have found := Cache.find?_load fetcher t.location p.cache
  rw [(sound.load isLocation).fetched isPure isLocation found 0, fails] at read
  cases read

/-- An idle reference becomes itself as long as no fragment has a name. -/
theorem RefNode.IsIdle.rewrite_eq_self (idle : r.IsIdle layout fetcher root)
    (waits : p.Waits layout fetcher root) : r.rewrite layout p.cache .root = r := by
  by_cases leaves : r.Leaves .root
  · obtain ⟨t, misses⟩ := idle leaves
    rw [rewrite, if_pos leaves, Scope.base, waits.root, misses.located]
    simp only [misses.outside, waits.unnamed t.key, if_false]
    rfl
  · rw [rewrite, if_neg leaves]

end Waits

section Quiet

variable {setting : Setting} {root : Url} {p q : Pass} {t : Target} {r : RefNode}

/-- Nothing gets a name at a reference that misses. -/
theorem waits_merging (isPure : setting.fetcher.IsPure) {visit : Visit}
    {outcome : Except ResolveError String} (misses : r.Misses setting.layout setting.fetcher root t)
    (waits : p.Waits setting.layout setting.fetcher root)
    (merging : Merging setting visit .root r.reference p outcome q) :
    q.Waits setting.layout setting.fetcher root := by
  have located : Target.locate r.reference (Scope.root.base p.cache.root) = .ok t := by
    rw [Scope.base, waits.root]
    exact misses.located
  have same {u : Target}
      (located' : Target.locate r.reference (Scope.root.base p.cache.root) = .ok u) : u = t :=
    Except.ok.inj (located'.symm.trans located)
  have isLocation : t.location.IsLocation :=
    (Target.isLocated_of_locate (Scope.isLocated_root.base waits.sound.root) located).location
  cases merging with
  | malformed => exact waits
  | wholeRoot => exact waits
  | backToRoot => exact waits
  | known => exact waits
  | unreadable located' =>
    obtain rfl := same located'
    exact waits.loaded isLocation
  | reused located' _ _ read =>
    obtain rfl := same located'
    exact absurd read (misses.not_read isPure waits.sound isLocation)
  | merged located' _ _ read =>
    obtain rfl := same located'
    exact absurd read (misses.not_read isPure waits.sound isLocation)

/-- **Walks of idle references are quiet.** -/
def quiet (setting : Setting) (isPure : setting.fetcher.IsPure) (root : Url) :
    WalkLaw setting where
  Inv _ := True
  Step stops p q := (∀ stop ∈ stops, stop.IsIdle setting.layout setting.fetcher root) →
    p.Waits setting.layout setting.fetcher root → q.Waits setting.layout setting.fetcher root
  Fit _ := True
  Done _ _ _ _ := True
  Cut _ _ := True
  step_nil _ := fun _ waits => waits
  step_append := by
    intro xs ys p q s hpq hqs idle waits
    have first := hpq (fun stop isStop => idle stop (List.mem_append_left ys isStop)) waits
    exact hqs (fun stop isStop => idle stop (List.mem_append_right xs isStop)) first
  done_mono _ _ := trivial
  cut_mono _ _ := trivial
  tooDeep _ _ := ⟨trivial, fun _ waits => waits.congr rfl, trivial⟩
  follows := by
    intro room visit scope r r' p q _ _ _ follows
    refine ⟨trivial, fun idle waits => ?_, trivial⟩
    obtain ⟨rfl, isIdle⟩ := idle _ (List.mem_singleton_self _)
    cases follows with
    | kept =>
      obtain ⟨more, same⟩ := Pass.exists_checked setting.layout r.reference p
      rw [same]
      exact waits.congr rfl
    | resolved leaves merging =>
      obtain ⟨t, misses⟩ := isIdle leaves
      exact waits_merging isPure misses waits merging
    | failed leaves merging =>
      obtain ⟨t, misses⟩ := isIdle leaves
      exact (waits_merging isPure misses waits merging).congr rfl

variable (setting) in
/-- No fragment gets a name while a position with idle references is resolved. -/
theorem waits_resolveAt (isPure : setting.fetcher.IsPure) {position : Nat} {name : String}
    {node : Node} (here : p.definitions[position]? = some (name, node))
    (idle : node.AllRefs (RefNode.IsIdle setting.layout setting.fetcher root))
    (waits : p.Waits setting.layout setting.fetcher root) :
    (resolveAt setting position p).2.Waits setting.layout setting.fetcher root := by
  have step := ((quiet setting isPure root).walkNode (fullRoom setting) .root node trivial
    (p.put position (name, .plain .null)) trivial).2.1
  rw [resolveAt_run here]
  exact (step (fun stop => Node.isIdle_of_mem_stops idle) (waits.congr rfl)).congr rfl

end Quiet

/-! ## Documents with idle references -/

namespace Document

variable {fetcher : Fetcher} {options : Options} {document : Document} {root : Url}

theorem passAfter_waits (isPure : fetcher.IsPure) (h : root.IsLocation)
    (idle : document.IsIdle fetcher root) {n : Nat} (bound : n ≤ document.definitions.length) :
    (document.passAfter fetcher options root n).Waits document.layout fetcher root := by
  induction n with
  | zero => exact ⟨Cache.sound_empty h.wellFormed document.layout fetcher, rfl, rfl⟩
  | succ n ih =>
    have before := ih (by omega)
    obtain ⟨entry, here⟩ : ∃ entry, document.definitions[n]? = some entry :=
      ⟨_, List.getElem?_eq_getElem (by omega)⟩
    have ready := (@passAfter_ready fetcher options document root n h (by omega)).2 here
    rw [passAfter_succ]
    exact waits_resolveAt (document.setting fetcher options) isPure ready
      (idle entry (List.mem_of_getElem? here)) before

/-- The requests of a pass are counted. -/
theorem logged_lastPass (fetcher : Fetcher) (options : Options) (document : Document)
    (h : root.IsLocation) :
    (document.lastPass fetcher options root).cache.Logged fetcher :=
  logged_resolveDefinitions (document.setting fetcher options)
    (p := Pass.start document.definitions (Cache.empty root)) (.empty h.wellFormed fetcher)

namespace Bundled

variable {q : Pass} {copies : List Copy} {done : Definitions}

/-- Nothing was copied if no fragment has a name. -/
theorem copies_eq_nil (h : document.Bundled fetcher options root q copies done)
    (waits : q.Waits document.layout fetcher root) : copies = [] := by
  cases copies with
  | nil => rfl
  | cons copy rest =>
    have named := h.merges.named copy (List.mem_cons_self ..)
    rw [waits.unnamed] at named
    cases named

/-- The definitions are what they were if all of their references became themselves. -/
theorem done_eq_self (h : document.Bundled fetcher options root q copies done)
    (waits : q.Waits document.layout fetcher root) (idle : document.IsIdle fetcher root) :
    done = document.definitions := by
  refine eq_of_forall₂ (fun entry member entry' redefined => ?_) h.related
  refine Prod.ext redefined.1 (redefined.2.eq_self fun place r found r' followed => ?_)
  rw [followed.knows q.cache h.sound (.refl _)]
  exact (idle entry member place r found).rewrite_eq_self waits

end Bundled

/-- **A pass with nothing to do.** A document with idle references only is left as it is. What is
asked for is the location of a reference that misses. -/
theorem resolve_of_idle (isPure : fetcher.IsPure) (known : options.rootUrl = .ok root)
    (idle : document.IsIdle fetcher root) :
    ∃ result, document.resolve fetcher options = .ok result ∧ result.document = document ∧
      result.report.merged = [] ∧ result.report.fetches = result.cache.asked.length ∧
      ∀ location ∈ result.cache.asked, ∃ entry ∈ document.definitions, ∃ place r t,
        entry.2.refAt? place = some r ∧ r.Leaves .root ∧ r.Misses document.layout fetcher root t ∧
          t.location = location := by
  have isLocation := Options.isLocation_of_rootUrl known
  obtain ⟨copies, done, bundled⟩ := document.lastPass_bundled fetcher options isLocation
  have waits : (document.lastPass fetcher options root).Waits document.layout fetcher root :=
    passAfter_waits isPure isLocation idle (Nat.le_refl _)
  have logged := logged_lastPass fetcher options document isLocation
  refine ⟨_, resolve_of_rootUrl fetcher options document known, ?_, ?_, logged.count.symm, ?_⟩
  · -- no copies, and every definition is what it was
    have definitions := bundled.definitions
    rw [bundled.copies_eq_nil waits, bundled.done_eq_self waits idle, List.map_nil,
      List.append_nil] at definitions
    rw [definitions]
  · have merged := bundled.merges.merged
    rw [bundled.copies_eq_nil waits] at merged
    exact merged
  · intro location asked
    obtain ⟨stop, isStop, asks⟩ :=
      (bundled.ledger.asked location asked).resolve_left List.not_mem_nil
    rw [bundled.copies_eq_nil waits, allStops, List.flatMap_nil, List.append_nil] at isStop
    obtain ⟨entry, isEntry, isStop⟩ := List.mem_flatMap.1 isStop
    cases Node.isAt_of_mem_stops isStop with
    | tooDeep => exact asks.elim
    | @reference place r found =>
      obtain ⟨leaves, u, located, same⟩ := asks
      obtain ⟨t, misses⟩ := idle entry isEntry place r found leaves
      rw [waits.root] at located
      obtain rfl : u = t := Except.ok.inj (located.symm.trans misses.located)
      exact ⟨entry, isEntry, place, r, u, found, leaves, misses, same⟩

end Document

end SchemaBundle
