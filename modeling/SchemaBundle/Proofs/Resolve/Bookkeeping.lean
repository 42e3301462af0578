import SchemaBundle.Proofs.Resolve.Dangling
import SchemaBundle.Proofs.Resolve.Reached

/-!
# The book of a pass

A book lists the names that a pass has given, the latest first. `Document.Describes` says that a
book is that of a pass: the names in the cache are those of the book, the names in use are those
that are taken, and a definition without references stands in the registry as the document has it or
as it was copied. Then what the pass offers at a candidate is what `FirstCome` asks there
(`Document.Describes.isNext`), and so the book is kept first come, first served up to the end
(`Document.exists_book`).

Only definitions without references are compared, and walking one of them does nothing
(`Runs.idle`); so it is of no account that others change, or are not there yet. The exception is the
definition that is being walked, in whose place `null` stands: the book is kept as long as no
fragment gets its name.
-/

namespace SchemaBundle

open Walk

/-- There are no references in a definition. -/
abbrev Node.NoRefs (node : Node) : Prop :=
  node.AllRefs fun _ => False

/-! ## Runs without references -/

section Runs

variable {setting : Setting} {depth : Nat} {scope : Scope} {p q : Pass} {events : List Event}

theorem Node.notMem_stops_of_noRefs {node : Node} (h : node.NoRefs) {other : Scope} {r : RefNode}
    {room : Nat} : .reference other r ∉ node.stops scope room := by
  intro isStop
  cases Node.isAt_of_mem_stops isStop with
  | reference place found => exact h place r found

/-- A run that comes to no reference changes nothing but the warnings. -/
theorem Runs.idle {xs xs' : List Part} (h : Runs setting depth scope xs p xs' q events)
    (none : ∀ r, .reference scope r ∉
      xs.flatMap (Part.stops scope (setting.options.maxDepth + 1 - depth))) :
    xs' = xs ∧ q.definitions = p.definitions ∧ q.cache = p.cache := by
  induction h with
  | nil => exact ⟨rfl, rfl, rfl⟩
  | cons _ _ ihFirst ihRest =>
    simp only [List.flatMap_cons, List.mem_append, not_or] at none
    obtain ⟨first, definitions, cache⟩ := ihFirst fun r => by
      rw [List.flatMap_singleton]
      exact (none r).1
    obtain ⟨rest, definitions', cache'⟩ := ihRest fun r => (none r).2
    rw [List.singleton_inj] at first
    exact ⟨by rw [first, rest], definitions'.trans definitions, cache'.trans cache⟩
  | @looked depth scope a a' p q events within inside hollow ih =>
    obtain ⟨room, isRoom⟩ : ∃ room, setting.options.maxDepth + 1 - depth = room + 1 :=
      ⟨setting.options.maxDepth - depth, by omega⟩
    have below : setting.options.maxDepth + 1 - (depth + a.drop) = room + 1 - a.drop := by omega
    rw [List.flatMap_singleton, isRoom, Part.stops, a.stops_succ, ← below] at none
    obtain ⟨parts, kept⟩ := ih none
    exact ⟨by rw [Schema.eq_of_parts hollow parts], kept⟩
  | refused beyond => exact ⟨rfl, rfl, rfl⟩
  | followed quiet => exact absurd (List.mem_singleton_self _) (none _)
  | opened opens => exact absurd (List.mem_singleton_self _) (none _)

theorem Runs.idle_node {node node' : Node} (free : node.NoRefs)
    (h : Runs setting depth scope [node.part] p [node'.part] q events) :
    node' = node ∧ q.definitions = p.definitions ∧ q.cache = p.cache := by
  obtain ⟨same, kept⟩ := h.idle fun r => by
    rw [List.flatMap_singleton]
    exact Node.notMem_stops_of_noRefs free
  exact ⟨Node.part_injective (List.singleton_inj.1 same), kept⟩

/-- A walk makes no references and takes none away. -/
theorem Runs.noRefs {node node' : Node}
    (h : Runs setting depth scope [node.part] p [node'.part] q events) (free : node'.NoRefs) :
    node.NoRefs := by
  obtain ⟨-, -, related⟩ := (shape setting).walkNode _ scope node trivial p trivial
  rw [walkPart_node.1 (mapM_singleton_run.1 h.walk)] at related
  intro place r found
  obtain ⟨r', found', -⟩ := optionRel_left (related.refAt? place) found
  exact free place r' found'

end Runs

/-! ## The book and the pass -/

theorem Cache.mem_names {c : Cache} {key : TargetKey} {name : String}
    (h : c.localName? key = some name) : (key, name) ∈ c.names := by
  obtain ⟨entry, found, rfl⟩ := Option.map_eq_some_iff.1 h
  obtain rfl : entry.1 = key := by simpa using List.find?_some found
  exact List.mem_of_find?_eq_some found

theorem Cache.notMem_names {c : Cache} {key : TargetKey} (h : c.localName? key = none)
    (name : String) : (key, name) ∉ c.names := by
  rw [localName?, Option.map_eq_none_iff, List.find?_eq_none] at h
  exact fun member => h _ member (by simp)

/-- What stands under a name from the beginning, or was copied. -/
def Origin (definitions : Definitions) (book : List Naming) (name : String) (node : Node) : Prop :=
  (name, node) ∈ definitions ∨
    ∃ n ∈ book, n.isCopy = true ∧ n.name = name ∧ n.fragment.node = node

theorem Origin.cons {definitions : Definitions} {book : List Naming} {name : String} {node : Node}
    (h : Origin definitions book name node) (n : Naming) :
    Origin definitions (n :: book) name node :=
  h.imp_right fun ⟨m, member, rest⟩ => ⟨m, List.mem_cons_of_mem _ member, rest⟩

/-- A book is that of a pass over a document, while the definition of the name `current` is walked,
if there is such a name. -/
structure Document.Describes (fetcher : Fetcher) (options : Options) (document : Document)
    (root : Url) (current : Option String) (book : List Naming) (p : Pass) : Prop where
  firstCome : FirstCome options document.definitions book
  reached : ∀ n ∈ book, document.LeadsTo fetcher root n.fragment
  names : p.cache.names = book.map fun n => (n.fragment.target.key, n.name)
  inUse : ∀ name, p.InUse name ↔ Taken document.definitions book name
  distinct : p.definitions.Distinct
  /-- What has no references stands there unchanged. -/
  stands : ∀ {name node}, Origin document.definitions book name node → node.NoRefs →
    Entries.find? name p.definitions = some node
  /-- And nothing else that has no references stands there. -/
  origin : ∀ {name node}, Entries.find? name p.definitions = some node → node.NoRefs →
    Origin document.definitions book name node ∨ current = some name ∧ node = .plain .null

namespace Document.Describes

variable {fetcher : Fetcher} {options : Options} {document : Document} {root : Url}
  {current : Option String} {book : List Naming} {p q : Pass} {f : Fragment} {n : Naming}
  {name : String} {node : Node}

/-- What a book says of a pass is said of the registry and the names. -/
theorem congr (h : document.Describes fetcher options root current book p)
    (definitions : q.definitions = p.definitions) (names : q.cache.names = p.cache.names)
    (inUse : ∀ name, q.InUse name ↔ p.InUse name) :
    document.Describes fetcher options root current book q where
  firstCome := h.firstCome
  reached := h.reached
  names := names.trans h.names
  inUse name := (inUse name).trans (h.inUse name)
  distinct := definitions ▸ h.distinct
  stands := definitions ▸ h.stands
  origin := definitions ▸ h.origin

/-! ### The next name -/

/-- What a fragment may share is there to be found. -/
theorem exists_of_shared (h : document.Describes fetcher options root current book p)
    (shared : Shared options document.definitions book name f) :
    ∃ present, Entries.find? name p.definitions = some present ∧
      options.reuseIdentical = true ∧ f.node.isSelfContained = true ∧
      present.eqv f.node = true := by
  rcases shared with ⟨reuse, selfContained, present, member, same⟩ |
    ⟨m, member, isCopy, isName, reuse, -, selfContained, same⟩
  · have free := Node.allRefs_of_eqv same selfContained
    exact ⟨present, h.stands (.inl member) free, reuse, selfContained, same⟩
  · have free := Node.allRefs_of_eqv same selfContained
    have found := h.stands (.inr ⟨m, member, isCopy, isName, rfl⟩) free
    exact ⟨_, found, reuse, selfContained, same⟩

/-- A candidate without an offer is taken, and there is nothing to share. -/
theorem of_offer?_eq_none (h : document.Describes fetcher options root current book p)
    (none : p.offer? (options.reuseIdentical && f.node.isSelfContained) f.node name = none) :
    Taken document.definitions book name ∧
      ¬ Shared options document.definitions book name f := by
  refine ⟨(h.inUse name).1 ?_, fun shared => ?_⟩
  · have member := Pass.taken_of_offer?_eq_none none
    rw [List.mem_append] at member
    exact member.imp_right fun reserved => by simpa [Cache.isReserved] using reserved
  · obtain ⟨present, found, reuse, selfContained, same⟩ := h.exists_of_shared shared
    simp [Pass.offer?, found, reuse, selfContained, same] at none

/-- What is found identical to a fragment may be shared, unless `null` stands in for it. -/
theorem shared_of_existing (h : document.Describes fetcher options root current book p)
    (placed : p.place options f.natural f.node = .existing name) (other : current ≠ some name) :
    Shared options document.definitions book name f := by
  obtain ⟨reuse, selfContained, present, found, same⟩ := Pass.present_of_place placed
  have free := Node.allRefs_of_eqv same selfContained
  rcases (h.origin found free).resolve_right fun standIn => other standIn.1 with
    member | ⟨m, member, isCopy, isName, rfl⟩
  · exact .inl ⟨reuse, selfContained, present, member, same⟩
  · have silent : m.fragment.node.isSelfContained = true := by
      cases shows : m.fragment.node.showsKey with
      | true =>
        have shows := (h.reached m member).isComparable.key same shows
        simp only [Node.isSelfContained, Bool.not_eq_true'] at selfContained
        exact absurd shows (by rw [Node.showsKey, selfContained]; exact Bool.false_ne_true)
      | false => rwa [Node.isSelfContained, Bool.not_eq_true']
    exact .inr ⟨m, member, isCopy, isName, reuse, silent, selfContained, same⟩

/-- **The next name of the pass is the next in the book.** -/
theorem isNext (h : document.Describes fetcher options root current book p)
    (unnamed : p.cache.localName? n.fragment.target.key = none)
    (placed : p.place options n.fragment.natural n.fragment.node = n.placement)
    (other : n.isCopy = false → current ≠ some n.name) :
    ∃ k, n.IsNext options document.definitions book k := by
  obtain ⟨k, offer, first⟩ := Pass.place_first options n.fragment.natural n.fragment.node p
  have isCandidate : n.name = Pass.candidate n.fragment.natural k := by
    rw [← Pass.name_of_offer? offer, placed, n.name_placement]
  refine ⟨k, ?_, isCandidate, fun i below => h.of_offer?_eq_none (first i below), ?_, ?_⟩
  · intro m member same
    have listed : (n.fragment.target.key, m.name) ∈ p.cache.names :=
      h.names ▸ same ▸ List.mem_map_of_mem member
    exact Cache.notMem_names unnamed m.name listed
  · intro isCopy taken
    rw [Naming.placement, if_pos isCopy] at placed
    obtain ⟨absent, free⟩ := Pass.unused_of_place placed
    rcases (h.inUse n.name).2 taken with present | reserved
    · exact absent present
    · simp [free] at reserved
  · intro isReused
    rw [Naming.placement, if_neg (by simp [isReused])] at placed
    exact h.shared_of_existing placed (other isReused)

/-- The name of a fragment is in use from then on. -/
theorem inUse_next (h : document.Describes fetcher options root current book p)
    (placed : p.place options n.fragment.natural n.fragment.node = n.placement)
    (inUse : ∀ name, q.InUse name ↔ p.InUse name ∨ name = n.name) (name : String) :
    q.InUse name ↔ Taken document.definitions (n :: book) name := by
  rw [inUse, h.inUse, taken_cons]
  constructor
  · rintro (taken | rfl)
    · exact .inl taken
    · cases isCopy : n.isCopy with
      | true => exact .inr ⟨rfl, rfl⟩
      | false =>
        rw [Naming.placement, if_neg (by simp [isCopy])] at placed
        obtain ⟨-, -, present, found, -⟩ := Pass.present_of_place placed
        refine .inl ((h.inUse n.name).1 (.inl ?_))
        exact (Entries.contains_iff ..).1 (by simp [Entries.contains, found])
  · rintro (taken | ⟨-, rfl⟩)
    · exact .inl taken
    · exact .inr rfl

/-- A fragment is given a name. If it is to be copied, it has references. -/
theorem recorded (h : document.Describes fetcher options root current book p)
    (leads : document.LeadsTo fetcher root n.fragment)
    (unnamed : p.cache.localName? n.fragment.target.key = none)
    (placed : p.place options n.fragment.natural n.fragment.node = n.placement)
    (other : n.isCopy = false → current ≠ some n.name)
    (refs : n.isCopy = true → ¬ n.fragment.node.NoRefs)
    (definitions : q.definitions = p.definitions)
    (names : q.cache.names = (n.fragment.target.key, n.name) :: p.cache.names)
    (inUse : ∀ name, q.InUse name ↔ p.InUse name ∨ name = n.name) :
    document.Describes fetcher options root current (n :: book) q where
  firstCome := by
    obtain ⟨k, next⟩ := h.isNext unnamed placed other
    exact .cons h.firstCome next
  reached := List.forall_mem_cons.2 ⟨leads, h.reached⟩
  names := by rw [names, h.names, List.map_cons]
  inUse := h.inUse_next placed inUse
  distinct := definitions ▸ h.distinct
  stands := by
    rw [definitions]
    rintro name node (member | ⟨m, member, isCopy, isName, rfl⟩) free
    · exact h.stands (.inl member) free
    · rcases List.mem_cons.1 member with rfl | member
      · exact absurd free (refs isCopy)
      · exact h.stands (.inr ⟨m, member, isCopy, isName, rfl⟩) free
  origin := by
    rw [definitions]
    exact fun found free => (h.origin found free).imp_left fun before => before.cons n

/-- A fragment without references is copied at once. -/
theorem copied (h : document.Describes fetcher options root current book p)
    (leads : document.LeadsTo fetcher root n.fragment)
    (unnamed : p.cache.localName? n.fragment.target.key = none)
    (placed : p.place options n.fragment.natural n.fragment.node = n.placement)
    (isCopy : n.isCopy = true)
    (definitions : q.definitions = Entries.insert n.name n.fragment.node p.definitions)
    (names : q.cache.names = (n.fragment.target.key, n.name) :: p.cache.names)
    (inUse : ∀ name, q.InUse name ↔ p.InUse name ∨ name = n.name) :
    document.Describes fetcher options root current (n :: book) q where
  firstCome := by
    obtain ⟨k, next⟩ := h.isNext unnamed placed (by simp [isCopy])
    exact .cons h.firstCome next
  reached := List.forall_mem_cons.2 ⟨leads, h.reached⟩
  names := by rw [names, h.names, List.map_cons]
  inUse := h.inUse_next placed inUse
  distinct := definitions ▸ Entries.distinct_insert h.distinct ..
  stands := by
    rw [definitions]
    have before {name : String} {node : Node} (free : node.NoRefs)
        (origin : Origin document.definitions book name node) :
        Entries.find? name (Entries.insert n.name n.fragment.node p.definitions) = some node := by
      have found := h.stands origin free
      have absent : Entries.find? n.name p.definitions = none := by
        rw [Naming.placement, if_pos isCopy] at placed
        exact Entries.find?_eq_none_iff.2 (Pass.unused_of_place placed).1
      rw [Entries.find?_insert_of_ne, found]
      rintro rfl
      cases absent.symm.trans found
    rintro name node (member | ⟨m, member, isCopy, isName, rfl⟩) free
    · exact before free (.inl member)
    · rcases List.mem_cons.1 member with rfl | member
      · rw [← isName, Entries.find?_insert_self]
      · exact before free (.inr ⟨m, member, isCopy, isName, rfl⟩)
  origin := by
    rw [definitions]
    intro name node found free
    by_cases same : n.name = name
    · rw [same, Entries.find?_insert_self, Option.some.injEq] at found
      exact .inl (.inr ⟨n, List.mem_cons_self .., isCopy, same, found⟩)
    · rw [Entries.find?_insert_of_ne same] at found
      exact (h.origin found free).imp_left fun before => before.cons n

/-- A fragment with references takes the place that was kept for it. -/
theorem inserted (h : document.Describes fetcher options root current book p) (member : n ∈ book)
    (isCopy : n.isCopy = true) (refs : ¬ n.fragment.node.NoRefs) (refs' : ¬ node.NoRefs)
    (definitions : q.definitions = Entries.insert n.name node p.definitions)
    (names : q.cache.names = p.cache.names) (inUse : ∀ name, q.InUse name ↔ p.InUse name) :
    document.Describes fetcher options root current book q where
  firstCome := h.firstCome
  reached := h.reached
  names := names.trans h.names
  inUse name := (inUse name).trans (h.inUse name)
  distinct := definitions ▸ Entries.distinct_insert h.distinct ..
  stands := by
    intro name other origin free
    rw [definitions, Entries.find?_insert_of_ne, h.stands origin free]
    rintro rfl
    rcases origin with inDocument | ⟨m, inBook, isCopy', isName, rfl⟩
    · exact h.firstCome.notMem_keys member isCopy (List.mem_map_of_mem inDocument)
    · obtain rfl := h.firstCome.copy_eq inBook member isCopy' isCopy isName
      exact refs free
  origin := by
    intro name other found free
    have ne : n.name ≠ name := by
      rintro rfl
      rw [definitions, Entries.find?_insert_self, Option.some.injEq] at found
      exact refs' (found ▸ free)
    rw [definitions, Entries.find?_insert_of_ne ne] at found
    exact h.origin found free

/-! ### The definition that is walked -/

section Position

variable {position : Nat}

/-- A definition with references is the only one of its name. -/
theorem ne_of_origin (h : document.Describes fetcher options root current book p)
    (distinct : document.definitions.Distinct) (entry : (name, node) ∈ document.definitions)
    (refs : ¬ node.NoRefs) {name' : String} {node' : Node}
    (origin : Origin document.definitions book name' node') (free : node'.NoRefs) :
    name' ≠ name := by
  rintro rfl
  rcases origin with inDocument | ⟨m, inBook, isCopy, rfl, -⟩
  · have found := Entries.find?_of_mem distinct inDocument
    obtain rfl : node = node' :=
      Option.some.inj ((Entries.find?_of_mem distinct entry).symm.trans found)
    exact refs free
  · exact h.firstCome.notMem_keys inBook isCopy (List.mem_map_of_mem entry)

/-- Something else takes the place of a definition with references: the definition that it becomes,
or `null` for as long as it is walked. -/
theorem put (h : document.Describes fetcher options root current book p)
    (distinct : document.definitions.Distinct) (entry : (name, node) ∈ document.definitions)
    (refs : ¬ node.NoRefs) {old new : Node} (here : p.definitions[position]? = some (name, old))
    {current' : Option String} (own : ∀ name', current = some name' → name' = name)
    (standIn : new.NoRefs → current' = some name ∧ new = .plain .null) :
    document.Describes fetcher options root current' book (p.put position (name, new)) where
  firstCome := h.firstCome
  reached := h.reached
  names := h.names
  inUse name := by
    rw [Pass.InUse, Pass.keys_put here]
    exact h.inUse name
  distinct := by
    rw [Entries.Distinct, Pass.keys_put here]
    exact h.distinct
  stands := by
    intro name' node' origin free
    have ne := h.ne_of_origin distinct entry refs origin free
    rw [Pass.put, Entries.find?_set_of_ne here ne]
    exact h.stands origin free
  origin := by
    intro name' node' found free
    by_cases same : name' = name
    · subst same
      rw [Pass.put, Entries.find?_set_self h.distinct here, Option.some.injEq] at found
      subst found
      exact .inr (standIn free)
    · rw [Pass.put, Entries.find?_set_of_ne here same] at found
      refine .inl ((h.origin found free).resolve_right ?_)
      rintro ⟨isCurrent, -⟩
      exact same (own name' isCurrent)

end Position

end Document.Describes

/-! ## The book of a run -/

/-- No fragment is given the name of the definition that is walked. -/
def Spares (current : Option String) (p q : Pass) : Prop :=
  ∀ key name, current = some name → q.cache.localName? key = some name →
    p.cache.localName? key = some name

section Run

variable {fetcher : Fetcher} {options : Options} {document : Document} {root : Url}
  {current : Option String} {book : List Naming} {scope : Scope} {r r' : RefNode} {p q s : Pass}
  {depth : Nat} {events : List Event}

theorem Spares.left (h : Spares current p s) (later : q.Before s) : Spares current p q :=
  fun key name isCurrent named => h key name isCurrent (later.cache.names named)

theorem Spares.right (h : Spares current p s) (later : p.Before q) : Spares current q s :=
  fun key name isCurrent named => later.cache.names (h key name isCurrent named)

/-- What a pass reads is what the fetcher has. -/
theorem RefNode.reads_of_load {layout : Layout} (isPure : fetcher.IsPure) (fit : scope.IsLocated)
    (sound : p.cache.Sound layout fetcher) (isRoot : p.cache.root = root) {t : Target} {node : Node}
    {natural : String} (leaves : r.Leaves scope)
    (located : Target.locate r.reference (scope.base p.cache.root) = .ok t)
    (outside : t.location ≠ p.cache.root)
    (read : t.fragmentOf layout (p.cache.load fetcher t.location).1 = .ok (node, natural)) :
    r.Reads layout fetcher root scope ⟨t, node, natural⟩ := by
  have isLocated := Target.isLocated_of_locate (fit.base sound.root) located
  have found := Cache.find?_load fetcher t.location p.cache
  rw [(sound.load isLocated.location).fetched isPure isLocated.location found 0] at read
  exact ⟨leaves, isRoot ▸ located, isRoot ▸ outside, read⟩

/-- Where nothing is visited, at most a name is reused. -/
theorem Document.Describes.followed
    (h : document.Describes fetcher options root current book p) (isPure : fetcher.IsPure)
    (fit : scope.IsLocated) (sound : p.cache.Sound document.layout fetcher)
    (isRoot : p.cache.root = root) (met : document.Meets fetcher root scope r)
    (quiet : Quiet (document.setting fetcher options) scope r p r' q)
    (spares : Spares current p q) :
    ∃ more, document.Describes fetcher options root current (more ++ book) q := by
  have same (names : q.cache.names = p.cache.names) :
      ∃ more, document.Describes fetcher options root current (more ++ book) q :=
    ⟨[], h.congr quiet.keeps.2.1 names quiet.keeps.2.2.2⟩
  cases quiet.follows (tooDeep (document.setting fetcher options)) with
  | kept stays =>
    refine same ?_
    obtain ⟨more, checked⟩ := Pass.exists_checked document.layout r.reference p
    exact checked ▸ rfl
  | failed leaves merging =>
    refine same ?_
    cases merging with
    | malformed | wholeRoot => rfl
    | unreadable => exact Cache.names_load ..
  | resolved leaves merging =>
    cases merging with
    | backToRoot | known => exact same rfl
    | @merged t node node' natural name s located outside unnamed read placed =>
      exact absurd ⟨leaves, located, outside, unnamed, natural, read, placed⟩
        (quiet.opensNone t node name)
    | @reused t node natural name located outside unnamed read placed =>
      have reads := RefNode.reads_of_load isPure fit sound isRoot leaves located outside read
      refine ⟨[⟨⟨t, node, natural⟩, name, false⟩],
        h.recorded ⟨scope, r, met, reads⟩ unnamed placed ?_ (by rintro ⟨⟩) rfl ?_ fun other => ?_⟩
      · -- otherwise the fragment would have the name of the definition that is walked
        intro _ isCurrent
        have named := spares t.key name isCurrent (Cache.localName?_record_self ..)
        cases unnamed.symm.trans named
      · exact congrArg ((t.key, name) :: ·) (Cache.names_load ..)
      · exact Pass.inUse_recorded.trans (or_congr_left Pass.inUse_loaded)

/-- A merge comes into the book at once if there is nothing to follow in the fragment, else when it
has been walked. -/
theorem Document.Describes.merged {t : Target} {node node' : Node} {natural name : String}
    (h : document.Describes fetcher options root current book p)
    (leads : document.LeadsTo fetcher root ⟨t, node, natural⟩)
    (unnamed : p.cache.localName? t.key = none)
    (placed : p.place options natural node = .fresh name)
    (inside : Runs (document.setting fetcher options) depth scope [node.part]
      (p.opened fetcher t name) [node'.part] q events)
    (walked : ∀ book, document.Describes fetcher options root current book
        (p.opened fetcher t name) →
      ∃ more, document.Describes fetcher options root current (more ++ book) q) :
    ∃ more, document.Describes fetcher options root current (more ++ book)
      (p.closed t name node' q) := by
  let n : Naming := ⟨⟨t, node, natural⟩, name, true⟩
  have names : (p.opened fetcher t name).cache.names = (t.key, name) :: p.cache.names := by
    simp [Pass.opened, Pass.recorded, Pass.loaded, Pass.marked, Cache.record]
  have isReserved : q.cache.isReserved name = true :=
    inside.trace.before.cache.reserved ((Cache.isReserved_record ..).2 (.inl rfl))
  by_cases free : node.NoRefs
  · obtain ⟨rfl, definitions, cache⟩ := inside.idle_node free
    refine ⟨[n], h.copied leads unnamed placed rfl ?_ ?_ fun other => ?_⟩
    · simp only [Pass.closed, Pass.definitions_released, Pass.inserted, Pass.reported,
        definitions]
      rfl
    · rw [Pass.names_closed, cache]
      exact names
    · rw [Pass.inUse_closed isReserved, Pass.InUse, definitions, cache]
      exact Pass.inUse_opened
  · obtain ⟨more, describes⟩ := walked (n :: book) (h.recorded leads unnamed placed (by rintro ⟨⟩)
      (fun _ => free) rfl names fun other => Pass.inUse_opened)
    have member : n ∈ more ++ n :: book := List.mem_append_right _ (List.mem_cons_self ..)
    refine ⟨more ++ [n], ?_⟩
    rw [List.append_assoc, List.singleton_append]
    refine describes.inserted member rfl free (fun free' => free (inside.noRefs free')) ?_
      (Pass.names_closed ..) fun other => Pass.inUse_closed isReserved
    simp only [Pass.closed, Pass.definitions_released, Pass.inserted, Pass.reported]
    rfl

/-- **A run keeps the book.** Every reference that it comes to is met in the document. -/
theorem Runs.describes {xs xs' : List Part}
    (h : Runs (document.setting fetcher options) depth scope xs p xs' q events)
    (isPure : fetcher.IsPure)
    (describes : document.Describes fetcher options root current book p) (fit : scope.IsLocated)
    (sound : p.cache.Sound document.layout fetcher) (isRoot : p.cache.root = root)
    (met : ∀ r, .reference scope r ∈
      xs.flatMap (Part.stops scope (options.maxDepth + 1 - depth)) →
        document.Meets fetcher root scope r)
    (spares : Spares current p q) :
    ∃ more, document.Describes fetcher options root current (more ++ book) q := by
  induction h generalizing book with
  | nil => exact ⟨[], describes⟩
  | refused beyond => exact ⟨[], describes.congr rfl rfl fun _ => .rfl⟩
  | followed quiet =>
    have metHere := met _ (List.mem_singleton_self _)
    exact describes.followed isPure fit sound isRoot metHere quiet spares
  | @cons depth scope x x' xs xs' p q s events more first rest ihFirst ihRest =>
    have before := first.trace.before
    obtain ⟨names, describes⟩ := ihFirst describes fit sound isRoot
      (fun r isStop => met r (by
        rw [List.flatMap_singleton] at isStop
        exact List.mem_append_left _ isStop))
      (spares.left rest.trace.before)
    obtain ⟨later, describes⟩ := ihRest describes fit (first.grows fit sound).1
      (before.cache.root.trans isRoot) (fun r isStop => met r (List.mem_append_right _ isStop))
      (spares.right before)
    exact ⟨later ++ names, by rwa [List.append_assoc]⟩
  | @looked depth scope a a' p q events within inside hollow ih =>
    obtain ⟨room, isRoom⟩ : ∃ room, options.maxDepth + 1 - depth = room + 1 :=
      ⟨options.maxDepth - depth, by
        have within : depth ≤ options.maxDepth := within
        omega⟩
    have below : options.maxDepth + 1 - (depth + a.drop) = room + 1 - a.drop := by omega
    refine ih describes fit sound isRoot (fun r isStop => met r ?_) spares
    rw [List.flatMap_singleton, isRoom, Part.stops, a.stops_succ, ← below]
    exact isStop
  | @opened depth scope r t node node' name p q events opens inside ih =>
    obtain ⟨leaves, located, outside, unnamed, natural, read, placed⟩ := opens
    have reads := RefNode.reads_of_load isPure fit sound isRoot leaves located outside read
    have metHere := met r (List.mem_singleton_self _)
    have isLocated := Target.isLocated_of_locate (fit.base sound.root) located
    have later := Pass.before_opened unnamed fetcher name
    refine describes.merged ⟨scope, r, metHere, reads⟩ unnamed placed inside fun book describes => ?_
    refine ih describes (Scope.isLocated_external isLocated.location)
      (sound_opened isLocated sound read name) (later.cache.root.trans isRoot) (fun r' isStop => ?_)
      ((spares.right later).left (Pass.before_closed ..))
    rw [List.flatMap_singleton] at isStop
    cases Node.isAt_of_mem_stops isStop with
    | reference place found => exact .onward metHere reads found

end Run

/-! ## The book of a document -/

namespace Document

variable {fetcher : Fetcher} {options : Options} {document : Document} {root : Url}

/-- No fragment is given the name of a definition while that definition is walked. -/
def SparesCurrent (fetcher : Fetcher) (options : Options) (document : Document) (root : Url) :
    Prop :=
  ∀ key name, (document.lastPass fetcher options root).cache.localName? key = some name →
    ¬ document.NamesCurrent fetcher options root key name

/-- The names that were given are not those of definitions. -/
theorem sparesCurrent_of_notMem
    (h : ∀ entry ∈ (document.lastPass fetcher options root).cache.names,
      entry.2 ∉ Entries.keys document.definitions) :
    document.SparesCurrent fetcher options root := by
  rintro key name named ⟨i, node, here, -⟩
  exact h _ (Cache.mem_names named) (List.mem_map_of_mem (List.mem_of_getElem? here))

/-- The book is empty at first. -/
theorem describes_start (distinct : document.definitions.Distinct) :
    document.Describes fetcher options root none []
      (Pass.start document.definitions (Cache.empty root)) where
  firstCome := .nil
  reached := by simp
  names := rfl
  inUse name := by simp [Pass.inUse_start, Taken]
  distinct := distinct
  stands := by
    rintro name node (member | ⟨n, member, -⟩) free
    · exact Entries.find?_of_mem distinct member
    · cases member
  origin found free := .inl (.inl (Entries.mem_of_find? found))

theorem SparesCurrent.spares (spares : document.SparesCurrent fetcher options root)
    (isLocation : root.IsLocation) {n : Nat} {name : String} {node node' : Node}
    (entry : document.definitions[n]? = some (name, node)) {s : Pass}
    (same : s.put n (name, node') = document.passAfter fetcher options root (n + 1)) :
    Spares (some name) (document.passAfter fetcher options root n) s := by
  rintro key _ ⟨⟩ named
  have bound := (List.getElem?_eq_some_iff.1 entry).1
  have named : (document.passAfter fetcher options root (n + 1)).cache.localName? key = some name :=
    same ▸ named
  have step := (@passAfter_later fetcher options document root n (n + 1) isLocation
    (Nat.le_succ n) bound).1
  have later := (@passAfter_later fetcher options document root (n + 1) _ isLocation bound
    (Nat.le_refl _)).1
  cases before : (document.passAfter fetcher options root n).cache.localName? key with
  | some other => rw [← step.names before, named]
  | none =>
    have during : document.NamedDuring fetcher options root key n := ⟨before, by simp [named]⟩
    exact absurd ⟨n, node, entry, during⟩ (spares key name (later.names named))

/-- **A sweep keeps the book.** A definition without references stays in its place. In the place of
one with references stands `null` first, and then something with references. -/
theorem describes_passAfter (isPure : fetcher.IsPure) (isLocation : root.IsLocation)
    (distinct : document.definitions.Distinct)
    (spares : document.SparesCurrent fetcher options root) {n : Nat} {q : Pass}
    {events : List Event}
    (h : Sweeps (document.setting fetcher options)
      (Pass.start document.definitions (Cache.empty root)) n q events)
    (bound : n ≤ document.definitions.length) :
    ∃ book, document.Describes fetcher options root none book q := by
  induction h with
  | zero => exact ⟨[], describes_start distinct⟩
  | @succ n q s events more name node node' before here inside ih =>
    obtain ⟨book, describes⟩ := ih (Nat.le_of_lt bound)
    have isAfter : document.passAfter fetcher options root n = q := before.resolves
    have isNext : s.put n (name, node') = document.passAfter fetcher options root (n + 1) :=
      (before.succ here inside).resolves.symm
    obtain ⟨sound, ready⟩ :=
      @passAfter_ready fetcher options document root n isLocation (Nat.le_of_lt bound)
    rw [isAfter] at sound ready
    have entry : document.definitions[n]? = some (name, node) := by
      have there := List.getElem?_eq_getElem bound
      rw [there, ← ready there, here]
    have inDocument := List.mem_of_getElem? entry
    by_cases free : node.NoRefs
    · obtain ⟨rfl, definitions, cache⟩ := inside.idle_node free
      have kept : (s.put n (name, node')).definitions = q.definitions := by
        obtain ⟨place, same⟩ := List.getElem?_eq_some_iff.1 here
        rw [Pass.put, definitions, Pass.put, List.set_set, ← same, List.set_getElem_self place]
      refine ⟨book, describes.congr kept (congrArg Cache.names cache) fun other => ?_⟩
      rw [Pass.InUse, Pass.InUse, kept]
      exact or_congr_right (by rw [show (s.put n (name, node')).cache = q.cache from cache])
    · have out : document.Describes fetcher options root (some name) book
          (q.put n (name, .plain .null)) :=
        describes.put distinct inDocument free here (by rintro _ ⟨⟩) fun _ => ⟨rfl, rfl⟩
      have spares := spares.spares isLocation entry isNext
      rw [isAfter] at spares
      obtain ⟨names, walked⟩ := inside.describes isPure out Scope.isLocated_root sound
        before.trace.before.cache.root
        (fun r isStop => by
          rw [List.flatMap_singleton] at isStop
          cases Node.isAt_of_mem_stops isStop with
          | reference place found => exact .own inDocument found)
        spares
      -- the place is still there
      have there : s.definitions[n]? = some (name, .plain .null) := by
        have place := (List.getElem?_eq_some_iff.1 here).1
        rw [(inside.grows Scope.isLocated_root sound).2.definitions,
          List.getElem?_append_left (by simpa [Pass.put] using place)]
        exact List.getElem?_set_self place
      exact ⟨names ++ book, walked.put distinct inDocument free there (by rintro _ ⟨⟩; rfl)
        fun free' => absurd (inside.noRefs free') free⟩

/-- A book of the names that a pass has given to all the fragments that a document leads to. -/
structure IsBook (fetcher : Fetcher) (options : Options) (document : Document) (root : Url)
    (book : List Naming) (q : Pass) : Prop where
  firstCome : FirstCome options document.definitions book
  reached : ∀ n ∈ book, document.LeadsTo fetcher root n.fragment
  full : ∀ f, document.LeadsTo fetcher root f → ∃ n ∈ book, n.fragment = f
  keys : ∀ name, name ∈ Entries.keys q.definitions ↔ Taken document.definitions book name

/-- **A pass that cuts nothing off has a book** that is kept first come, first served. -/
theorem exists_book (isPure : fetcher.IsPure) (isLocation : root.IsLocation)
    (distinct : document.definitions.Distinct)
    (spares : document.SparesCurrent fetcher options root)
    (whole : ∀ scope, ¬ DepthReported (document.setting fetcher options) scope
      (document.lastPass fetcher options root)) :
    ∃ book, document.IsBook fetcher options root book (document.lastPass fetcher options root) := by
  obtain ⟨events, run⟩ := document.exists_run fetcher options isLocation
  obtain ⟨book, describes⟩ :=
    describes_passAfter isPure isLocation distinct spares run (Nat.le_refl _)
  refine ⟨book, describes.firstCome, describes.reached, fun f leads => ?_, fun name => ?_⟩
  · obtain ⟨name, named⟩ := leads.named isPure isLocation whole
    have listed := Cache.mem_names named
    rw [describes.names] at listed
    obtain ⟨n, member, isEntry⟩ := List.mem_map.1 listed
    have isKey := congrArg Prod.fst isEntry
    exact ⟨n, member, (describes.reached n member).eq_of_key isLocation leads isKey⟩
  · rw [run.mem_keys_iff isLocation, ← describes.inUse, run.trace.inUse_iff, Pass.inUse_start]

end Document

end SchemaBundle
