import SchemaBundle.Proofs.Resolve.Faithful

/-!
# Sessions: many calls on one registry and one cache

A session is a list of calls. Each asks for a schema, a field or the registry to be resolved, with
options of its own, by the resolver at hand or by a new one; the registry and the cache stay.

`Turn.Grew` says what one call does: the registry has the names of the fragments that it merged at
its end and is otherwise kept, and every reference within the room of a walk was followed. Over a
session the growth adds up (`session_grows`), so no fragment is merged twice and no name is given
twice. References with one key become the same, whichever calls they are met in, since the names
that a cache knows are known from then on (`session_exactlyOnce`).
-/

namespace SchemaBundle

open Walk

/-! ## Calls -/

/-- What a resolver is asked to resolve: the registry, or a schema or a field of the root document
that stands outside the registry, if there is one. -/
inductive Request
  | node (node : Option Node)
  | field (field : Option Field)
  | registry

/-- Resolve what is asked for. -/
def Request.run (setting : Setting) : Request → PassM Request
  | .node a => do return .node (← a.mapM (resolveNode setting))
  | .field a => do return .field (← a.mapM (resolveField setting))
  | .registry => do
    resolveDefinitions setting
    return .registry

/-- An answer is of the kind that was asked for. -/
def Request.IsAnswered : Request → Request → Prop
  | .node a, .node b => b.isSome = a.isSome
  | .field a, .field b => b.isSome = a.isSome
  | .registry, .registry => True
  | _, _ => False

theorem Request.IsAnswered.exists_node {a : Node} {made : Request}
    (h : (Request.node (some a)).IsAnswered made) : ∃ b, made = .node (some b) := by
  cases made with
  | node b =>
    obtain ⟨b, rfl⟩ := Option.isSome_iff_exists.1 h
    exact ⟨b, rfl⟩
  | _ => exact h.elim

theorem Request.IsAnswered.exists_field {a : Field} {made : Request}
    (h : (Request.field (some a)).IsAnswered made) : ∃ b, made = .field (some b) := by
  cases made with
  | field b =>
    obtain ⟨b, rfl⟩ := Option.isSome_iff_exists.1 h
    exact ⟨b, rfl⟩
  | _ => exact h.elim

/-- A request, made of the resolver at hand or of a new one. -/
structure Call where
  options : Options
  renew : Bool
  request : Request

/-- A call between the passes around it, and what its request was made into. -/
structure Turn where
  call : Call
  before : Pass
  made : Request
  after : Pass

/-- A new resolver has nothing to report yet. It works on the same registry with the same cache. -/
def Call.begin (call : Call) (p : Pass) : Pass :=
  if call.renew then Pass.start p.definitions p.cache else p

/-- Carry out a call. -/
def Call.turn (layout : Layout) (fetcher : Fetcher) (call : Call) (p : Pass) : Turn :=
  let (made, q) := call.request.run ⟨layout, fetcher, call.options⟩ (call.begin p)
  ⟨call, call.begin p, made, q⟩

/-- Carry out calls one after the other. -/
def session (layout : Layout) (fetcher : Fetcher) : List Call → Pass → List Turn
  | [], _ => []
  | call :: rest, p =>
    call.turn layout fetcher p :: session layout fetcher rest (call.turn layout fetcher p).after

/-! ## What a call walks -/

namespace Turn

variable (layout : Layout) (fetcher : Fetcher) (turn : Turn)

/-- What stays the same during a call. -/
def setting : Setting :=
  ⟨layout, fetcher, turn.call.options⟩

/-- The references by their places. -/
abbrev References := List PlaceStep → Option RefNode

/-- The schemas that a call walks, before and after, with the scope and the room of the walk: what
it was asked for, and the fragments that it merged. -/
inductive Walked (copies : List Copy) : Scope → Nat → References → References → Prop
  | node {a b : Node} (asked : turn.call.request = .node (some a))
    (made : turn.made = .node (some b)) :
    Walked copies .root (turn.call.options.maxDepth + 1) (a.refAt? ·) (b.refAt? ·)
  | field {a b : Field} (asked : turn.call.request = .field (some a))
    (made : turn.made = .field (some b)) :
    Walked copies .root (turn.call.options.maxDepth + 1) (a.refAt? ·) (b.refAt? ·)
  | definition {i : Nat} {a b : String × Node} (asked : turn.call.request = .registry)
    (before : turn.before.definitions[i]? = some a)
    (after : turn.after.definitions[i]? = some b) :
    Walked copies .root (turn.call.options.maxDepth + 1) (a.2.refAt? ·) (b.2.refAt? ·)
  | copy {copy : Copy} (member : copy ∈ copies) :
    Walked copies (.external copy.target.location) copy.room (copy.source.refAt? ·)
      (copy.result.refAt? ·)

/-- A reference that a call met, and what it became. -/
def Met (copies : List Copy) (scope : Scope) (r r' : RefNode) : Prop :=
  ∃ room before after place, turn.Walked copies scope room before after ∧
    levels place < room ∧ before place = some r ∧ after place = some r'

/-- A definition that a call leaves where it is: it is walked if the registry was asked for, and is
not touched otherwise. -/
def Keeps (entry entry' : String × Node) : Prop :=
  entry'.1 = entry.1 ∧ (turn.call.request = .registry ∨ entry' = entry)

/-- What a call does to the registry and to the references that it meets. -/
structure Grew (copies : List Copy) : Prop where
  adds : Adds copies turn.before turn.after
  merged : turn.after.merged = turn.before.merged ++ copies.map Copy.merged
  kept : ∃ kept, turn.after.definitions = kept ++ copies.map Copy.entry ∧
    List.Forall₂ turn.Keeps turn.before.definitions kept
  read : ∀ copy ∈ copies, copy.IsRead layout fetcher
  /-- The references of a walk are where they were; those within its room were followed. -/
  related : ∀ {scope room before after}, turn.Walked copies scope room before after → ∀ place,
    Option.Rel (RelAt (Followed (turn.setting layout fetcher) scope · · turn.after)
      (DepthReported (turn.setting layout fetcher) scope turn.after) room place)
      (before place) (after place)

/-- The stops of what a call asks for. -/
def stops : List Stop :=
  match turn.call.request with
  | .node a => a.toList.flatMap (Node.stops .root (turn.call.options.maxDepth + 1))
  | .field a => a.toList.flatMap (Field.stops .root (turn.call.options.maxDepth + 1))
  | .registry =>
    turn.before.definitions.flatMap fun entry =>
      entry.2.stops .root (turn.call.options.maxDepth + 1)

theorem stops_node {turn : Turn} {a : Node} (asked : turn.call.request = .node (some a)) :
    turn.stops = a.stops .root (turn.call.options.maxDepth + 1) := by
  simp [stops, asked]

theorem stops_field {turn : Turn} {a : Field} (asked : turn.call.request = .field (some a)) :
    turn.stops = a.stops .root (turn.call.options.maxDepth + 1) := by
  simp [stops, asked]

theorem stops_registry {turn : Turn} (asked : turn.call.request = .registry) :
    turn.stops = definitionStops (turn.setting layout fetcher) turn.before.definitions := by
  simp only [stops, asked]
  rfl

/-- What a call does, with the account of it. -/
structure Accounts (copies : List Copy) : Prop extends turn.Grew layout fetcher copies,
    Ledger (turn.setting layout fetcher) turn.stops copies turn.before turn.after where
  answered : turn.call.request.IsAnswered turn.made

end Turn

/-! ## One call -/

section Call

variable {layout : Layout} {fetcher : Fetcher} {p q : Pass} {copies : List Copy}

/-- What is found at the position of a kept definition is what the definition was made into. -/
theorem getElem?_of_forall₂ {α : Type} {P : α → α → Prop} {xs ys more : List α}
    (h : List.Forall₂ P xs ys) {i : Nat} {a b : α} (before : xs[i]? = some a)
    (after : (ys ++ more)[i]? = some b) : P a b := by
  have bound : i < ys.length := by
    rw [← h.length_eq]
    exact (List.getElem?_eq_some_iff.1 before).1
  rw [List.getElem?_append_left bound] at after
  obtain ⟨b', found, related⟩ := optionRel_left (optionRel_get h i) before
  rw [after, Option.some.injEq] at found
  rwa [found]

theorem Copy.Faithful.refAt? {setting : Setting} {copy : Copy} (h : copy.Faithful setting q)
    (place : List PlaceStep) :
    Option.Rel (RelAt (Followed setting (.external copy.target.location) · · q)
      (DepthReported setting (.external copy.target.location) q) copy.room place)
      (copy.source.refAt? place) (copy.result.refAt? place) :=
  h.related.refAt? place

theorem keeps_refl {turn : Turn} (entry : String × Node) : turn.Keeps entry entry :=
  ⟨rfl, .inr rfl⟩

/-- A call that asks for something outside the registry: the walk of it is all that has to be
related. -/
theorem Turn.grew_of_grows {turn : Turn}
    (sound : turn.after.cache.Sound layout fetcher)
    (grows : Grows (turn.setting layout fetcher) copies turn.before turn.after)
    (related : ∀ {scope room before after}, turn.Walked [] scope room before after → ∀ place,
      Option.Rel (RelAt (Followed (turn.setting layout fetcher) scope · · turn.after)
        (DepthReported (turn.setting layout fetcher) scope turn.after) room place)
        (before place) (after place)) :
    turn.Grew layout fetcher copies where
  adds := grows.toAdds
  merged := grows.merged
  kept := ⟨turn.before.definitions, grows.definitions, List.forall₂_same.2 fun _ _ => keeps_refl _⟩
  read copy member := (grows.faithful copy member).isRead sound
  related := by
    intro scope room before after walked place
    cases walked with
    | node asked made => exact related (.node asked made) place
    | field asked made => exact related (.field asked made) place
    | definition asked here there => exact related (.definition asked here there) place
    | copy member => exact (grows.faithful _ member).refAt? place

theorem run_none_node (setting : Setting) (p : Pass) :
    (Request.node none).run setting p = (.node none, p) := rfl

theorem run_none_field (setting : Setting) (p : Pass) :
    (Request.field none).run setting p = (.field none, p) := rfl

theorem run_node (setting : Setting) (a : Node) (p : Pass) :
    (Request.node (some a)).run setting p
      = (.node (some (resolveNode setting a p).1), (resolveNode setting a p).2) := rfl

theorem run_field (setting : Setting) (a : Field) (p : Pass) :
    (Request.field (some a)).run setting p
      = (.field (some (resolveField setting a p).1), (resolveField setting a p).2) := rfl

theorem run_registry (setting : Setting) (p : Pass) :
    Request.registry.run setting p = (.registry, (resolveDefinitions setting p).2) := rfl

theorem Call.cache_begin (call : Call) (p : Pass) : (call.begin p).cache = p.cache := by
  unfold Call.begin
  split <;> rfl

theorem Call.definitions_begin (call : Call) (p : Pass) :
    (call.begin p).definitions = p.definitions := by
  unfold Call.begin
  split <;> rfl

/-- A turn in which a schema outside the registry was asked for. -/
theorem Turn.grew_node {call : Call} {a : Node} (asked : call.request = .node (some a))
    (sound : p.cache.Sound layout fetcher) :
    let (made, q) := call.request.run ⟨layout, fetcher, call.options⟩ p
    q.cache.Sound layout fetcher ∧
      ∃ copies, Turn.Accounts layout fetcher ⟨call, p, made, q⟩ copies := by
  rw [asked, run_node]
  have walk := resolveNode_grows ⟨layout, fetcher, call.options⟩ a sound
  generalize resolveNode ⟨layout, fetcher, call.options⟩ a p = answer at walk
  obtain ⟨b, q⟩ := answer
  obtain ⟨sound, ⟨copies, grows⟩, related⟩ := walk
  have ledger : Ledger ⟨layout, fetcher, call.options⟩
      (Turn.stops ⟨call, p, .node (some b), q⟩) copies p q := by
    rw [Turn.stops_node asked]
    exact grows.toLedger
  refine ⟨sound, copies, Turn.grew_of_grows sound grows.toGrows fun walked place => ?_, ledger,
    by simp [asked, Request.IsAnswered]⟩
  cases walked with
  | node asked' made =>
    obtain rfl : a = _ := by simpa using asked.symm.trans asked'
    cases made
    exact related.refAt? place
  | field asked' => cases asked.symm.trans asked'
  | definition asked' => cases asked.symm.trans asked'
  | copy member => cases member

/-- A turn in which a field outside the registry was asked for. -/
theorem Turn.grew_field {call : Call} {a : Field} (asked : call.request = .field (some a))
    (sound : p.cache.Sound layout fetcher) :
    let (made, q) := call.request.run ⟨layout, fetcher, call.options⟩ p
    q.cache.Sound layout fetcher ∧
      ∃ copies, Turn.Accounts layout fetcher ⟨call, p, made, q⟩ copies := by
  rw [asked, run_field]
  have walk := resolveField_grows ⟨layout, fetcher, call.options⟩ a sound
  generalize resolveField ⟨layout, fetcher, call.options⟩ a p = answer at walk
  obtain ⟨b, q⟩ := answer
  obtain ⟨sound, ⟨copies, grows⟩, related⟩ := walk
  have ledger : Ledger ⟨layout, fetcher, call.options⟩
      (Turn.stops ⟨call, p, .field (some b), q⟩) copies p q := by
    rw [Turn.stops_field asked]
    exact grows.toLedger
  refine ⟨sound, copies, Turn.grew_of_grows sound grows.toGrows fun walked place => ?_, ledger,
    by simp [asked, Request.IsAnswered]⟩
  cases walked with
  | node asked' => cases asked.symm.trans asked'
  | field asked' made =>
    obtain rfl : a = _ := by simpa using asked.symm.trans asked'
    cases made
    exact related.refAt? place
  | definition asked' => cases asked.symm.trans asked'
  | copy member => cases member

/-- A turn in which the registry was asked for. -/
theorem Turn.grew_registry {call : Call} (asked : call.request = .registry)
    (sound : p.cache.Sound layout fetcher) :
    let (made, q) := call.request.run ⟨layout, fetcher, call.options⟩ p
    q.cache.Sound layout fetcher ∧
      ∃ copies, Turn.Accounts layout fetcher ⟨call, p, made, q⟩ copies := by
  rw [asked, run_registry]
  have walk := @resolveDefinitions_grows ⟨layout, fetcher, call.options⟩ p sound
  generalize (resolveDefinitions ⟨layout, fetcher, call.options⟩ p).2 = q at walk
  obtain ⟨sound, copies, done, merges, ledger, definitions, related⟩ := walk
  refine ⟨sound, copies, ⟨merges.toAdds, merges.merged, ⟨done, definitions, ?_⟩, ?_, ?_⟩, ?_,
    by simp [asked, Request.IsAnswered]⟩
  · exact related.imp fun entry entry' h => ⟨h.1, .inl asked⟩
  · exact fun copy member => (merges.faithful copy member).isRead sound
  · intro scope room before after walked place
    cases walked with
    | node asked' => cases asked.symm.trans asked'
    | field asked' => cases asked.symm.trans asked'
    | definition asked' here there =>
      dsimp only at here there
      rw [definitions] at there
      exact (getElem?_of_forall₂ related here there).2.refAt? place
    | copy member => exact (merges.faithful _ member).refAt? place
  · rw [Turn.stops_registry layout fetcher asked]
    exact ledger

/-- **One call.** -/
theorem Call.turn_accounts (call : Call) (sound : p.cache.Sound layout fetcher) :
    (call.turn layout fetcher p).after.cache.Sound layout fetcher ∧
      ∃ copies, (call.turn layout fetcher p).Accounts layout fetcher copies := by
  rw [← call.cache_begin] at sound
  have nothing : Grows ⟨layout, fetcher, call.options⟩ [] (call.begin p) (call.begin p) :=
    grows_nil (.refl _) rfl rfl .inl
  unfold Call.turn
  cases asked : call.request with
  | node a =>
    cases a with
    | none =>
      rw [run_none_node]
      refine ⟨sound, [], Turn.grew_of_grows sound nothing ?_, ?_,
        by simp [asked, Request.IsAnswered]⟩
      · intro scope room before after walked
        cases walked <;> simp_all
      · simpa [Turn.stops, asked] using ledger_nil rfl rfl
    | some a => exact asked ▸ Turn.grew_node asked sound
  | field a =>
    cases a with
    | none =>
      rw [run_none_field]
      refine ⟨sound, [], Turn.grew_of_grows sound nothing ?_, ?_,
        by simp [asked, Request.IsAnswered]⟩
      · intro scope room before after walked
        cases walked <;> simp_all
      · simpa [Turn.stops, asked] using ledger_nil rfl rfl
    | some a => exact asked ▸ Turn.grew_field asked sound
  | registry => exact asked ▸ Turn.grew_registry asked sound

end Call

/-! ## Sessions -/

section Session

variable {layout : Layout} {fetcher : Fetcher} {p : Pass}

/-- A session adds what its calls add. -/
theorem session_accounts (calls : List Call) (sound : p.cache.Sound layout fetcher) :
    ∃ added q, List.Forall₂ (Turn.Accounts layout fetcher) (session layout fetcher calls p) added ∧
      Adds added.flatten p q ∧ q.cache.Sound layout fetcher ∧
      ∀ turn ∈ session layout fetcher calls p, turn.after.cache.Le q.cache := by
  induction calls generalizing p with
  | nil => exact ⟨[], p, .nil, adds_nil (.refl _) rfl, sound, by simp [session]⟩
  | cons call rest ih =>
    obtain ⟨sound', copies, grew⟩ := call.turn_accounts sound
    obtain ⟨added, q, turns, adds, final, later⟩ := ih sound'
    have here : Adds copies p (call.turn layout fetcher p).after :=
      grew.adds.congr (call.cache_begin p) (call.definitions_begin p)
    refine ⟨copies :: added, q, .cons grew turns, here.trans adds, final, ?_⟩
    intro turn member
    rcases List.mem_cons.1 member with rfl | member
    · exact adds.cache
    · exact later turn member

theorem session_grows (calls : List Call) (sound : p.cache.Sound layout fetcher) :
    ∃ added q, List.Forall₂ (Turn.Grew layout fetcher) (session layout fetcher calls p) added ∧
      Adds added.flatten p q ∧ q.cache.Sound layout fetcher ∧
      ∀ turn ∈ session layout fetcher calls p, turn.after.cache.Le q.cache := by
  obtain ⟨added, q, accounts, rest⟩ := session_accounts calls sound
  exact ⟨added, q, accounts.imp fun _ _ => Turn.Accounts.toGrew, rest⟩

/-- Two references that became local in the same way, or that were both left unresolved. -/
def Agree (scope : Scope) (r r' : RefNode) (scope' : Scope) (s s' : RefNode) : Prop :=
  (∃ reference, r' = r.localized reference ∧ s' = s.localized reference) ∨
    r' = r.unresolved scope ∧ s' = s.unresolved scope'

/-- By the names of one cache, references to one target become the same. -/
theorem RefNode.rewrite_agree {c : Cache} {scope scope' : Scope} {r s : RefNode} {t : Target}
    (leaves : r.Leaves scope) (leaves' : s.Leaves scope')
    (located : Target.locate r.reference (scope.base c.root) = .ok t)
    (located' : Target.locate s.reference (scope'.base c.root) = .ok t) :
    Agree scope r (r.rewrite layout c scope) scope' s (s.rewrite layout c scope') := by
  unfold RefNode.rewrite
  rw [if_pos leaves, if_pos leaves', located, located']
  dsimp only
  split
  · split
    · exact .inl ⟨_, rfl, rfl⟩
    · exact .inr ⟨rfl, rfl⟩
  · split
    · exact .inl ⟨_, rfl, rfl⟩
    · exact .inr ⟨rfl, rfl⟩

theorem Turn.Grew.isLocated {turn : Turn} {copies : List Copy} (h : turn.Grew layout fetcher copies)
    {scope : Scope} {room : Nat} {before after : Turn.References}
    (walked : turn.Walked copies scope room before after) : scope.IsLocated := by
  cases walked with
  | node => exact Scope.isLocated_root
  | field => exact Scope.isLocated_root
  | definition => exact Scope.isLocated_root
  | copy member => exact Scope.isLocated_external (h.read _ member).located.location

/-- A reference that a call met is, from then on, what every cache says. -/
theorem Turn.Grew.knows {turn : Turn} {copies : List Copy} (h : turn.Grew layout fetcher copies)
    {scope : Scope} {r r' : RefNode} (met : turn.Met copies scope r r') :
    scope.IsLocated ∧ r.Knows layout fetcher scope r' turn.after.cache := by
  obtain ⟨room, before, after, place, walked, near, found, there⟩ := met
  refine ⟨h.isLocated walked, ?_⟩
  obtain ⟨r₁, found', related⟩ := optionRel_left (h.related walked place) found
  rw [there, Option.some.injEq] at found'
  subst found'
  rcases related with ⟨-, followed⟩ | ⟨beyond, -⟩
  · exact followed.knows
  · omega

/-- The fragments of a session are told apart by the way they are shown. -/
theorem nodup_sources {copies : List Copy} {q : Pass} (adds : Adds copies p q)
    (located : ∀ copy ∈ copies, copy.target.IsLocated) :
    (copies.map fun copy => copy.merged.source).Nodup := by
  have shown : (copies.map fun copy => copy.merged.source)
      = (copies.map fun copy => copy.target.key).map TargetKey.text := by
    rw [List.map_map]
    rfl
  rw [shown]
  refine adds.distinct.map_on fun key here other there same => ?_
  obtain ⟨copy, member, rfl⟩ := List.mem_map.1 here
  obtain ⟨copy', member', rfl⟩ := List.mem_map.1 there
  rw [Target.eq_of_key_text (located copy member) (located copy' member') same]

end Session

/-- **Growth and exactly-once merges.** Every call of a session puts the names of the fragments that
it merged at the end of the registry and keeps the rest. Over the session no fragment is merged
twice, no name is given twice, and two references that have the same key, in whichever calls they
are met, become the same local reference, unless both are left unresolved. -/
theorem session_exactlyOnce {text : String} {root : Url} (read : Url.parse text = .ok root)
    (layout : Layout) (fetcher : Fetcher) (definitions : Definitions) (calls : List Call) :
    let turns := session layout fetcher calls (Pass.start definitions (Cache.empty root))
    ∃ added : List (List Copy), List.Forall₂ (Turn.Grew layout fetcher) turns added ∧
      (added.flatten.map fun copy => copy.merged.source).Nodup ∧
      (added.flatten.map fun copy => copy.merged.localName).Nodup ∧
      ∀ first ∈ turns.zip added, ∀ second ∈ turns.zip added,
        ∀ {scope scope' : Scope} {r r' s s' : RefNode} {t u : Target},
          first.1.Met first.2 scope r r' → second.1.Met second.2 scope' s s' →
          r.Leaves scope → s.Leaves scope' →
          Target.locate r.reference (scope.base root) = .ok t →
          Target.locate s.reference (scope'.base root) = .ok u → t.key = u.key →
          Agree scope r r' scope' s s' := by
  intro turns
  have wellFormed : root.WellFormed := Url.wellFormed_parse _ _ read
  obtain ⟨added, q, grew, adds, sound, later⟩ :=
    session_grows (p := Pass.start definitions (Cache.empty root)) calls
      (Cache.sound_empty wellFormed layout fetcher)
  have isRoot : q.cache.root = root := adds.cache.root
  refine ⟨added, grew, nodup_sources adds ?_, adds.distinctNames, ?_⟩
  · intro copy member
    obtain ⟨copies, isAdded, member⟩ := List.mem_flatten.1 member
    obtain ⟨turn, -, grew⟩ := forall₂_right grew isAdded
    exact (grew.read copy member).located
  · rintro ⟨turn, copies⟩ inFirst ⟨turn', copies'⟩ inSecond scope scope' r r' s s' t u met met'
      leaves leaves' located located' same
    have each {turn : Turn} {copies : List Copy} (member : (turn, copies) ∈ turns.zip added) :
        turn.Grew layout fetcher copies := (List.forall₂_iff_zip.1 grew).2 member
    obtain ⟨fit, knows⟩ := (each inFirst).knows met
    obtain ⟨fit', knows'⟩ := (each inSecond).knows met'
    have ht := Target.isLocated_of_locate (fit.base wellFormed) located
    have hu := Target.isLocated_of_locate (fit'.base wellFormed) located'
    obtain rfl := Target.eq_of_key ht hu same
    rw [knows q.cache sound (later turn (List.of_mem_zip inFirst).1),
      knows' q.cache sound (later turn' (List.of_mem_zip inSecond).1)]
    rw [← isRoot] at located located'
    exact RefNode.rewrite_agree leaves leaves' located located'

/-- A session on the document of the sample: a schema is resolved first, without room for what lies
behind its reference, and then the registry by another resolver. -/
def Sample.calls : List Call :=
  [⟨⟨none, 0, false⟩, true, .node (some (.ref ⟨"pets.yaml#/definitions/Tag", .relativeFile, []⟩))⟩,
    ⟨.default, true, .registry⟩]

/-- The session. -/
def Sample.turns : List Turn :=
  session .swagger2 fetcher calls (Pass.start document.definitions (Cache.empty root))

/-- Each of the two calls merges one fragment and puts its name at the end. -/
theorem session_exactlyOnce_sample : Url.parse "file:///swagger.yaml" = .ok Sample.root ∧
    (Sample.turns.map fun turn =>
      (turn.after.merged.map (·.source), Entries.keys turn.after.definitions))
        = [(["file:///pets.yaml#/definitions/Tag"], ["Start", "Tag"]),
          (["file:///pets.yaml#/definitions/Pet"], ["Start", "Tag", "Pet"])] ∧
    ∃ added, List.Forall₂ (Turn.Grew .swagger2 Sample.fetcher) Sample.turns added ∧
      (added.flatten.map fun copy => copy.merged.source).Nodup ∧ added.length = 2 := by
  have read : Url.parse "file:///swagger.yaml" = .ok Sample.root := rfl
  obtain ⟨added, grew, distinct, -⟩ :=
    session_exactlyOnce read .swagger2 Sample.fetcher Sample.document.definitions Sample.calls
  exact ⟨read, by decide +kernel, added, grew, distinct, grew.length_eq.symm⟩

end SchemaBundle
