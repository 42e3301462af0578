import SchemaBundle.Proofs.Resolve.Session

/-!
# What is asked of the fetcher

A cache keeps a log: the documents that it has are what the fetcher answered, request by request, no
location was asked for twice, and the root never (`Cache.Logged`). The law `requests` says that
every walk keeps the log. Why something was asked for is in the account of the walks: each location
is that of a reference at one of their stops.

Over a session the two come together (`session_requests`). The answers of the fetcher may change
from request to request, since each is asked for once only, whether it was a document or not.
-/

namespace SchemaBundle

open Walk

/-! ## The log of a cache -/

/-- The documents of a cache are the answers to the requests in its log, in order. -/
structure Cache.Logged (fetcher : Fetcher) (c : Cache) : Prop where
  root : c.root.WellFormed
  documents : c.documents = c.asked.mapIdx fun turn location =>
    (location.text, fetchDocument fetcher turn location)
  count : c.asked.length = c.fetches
  once : (c.asked.map Url.text).Nodup
  located : ∀ location ∈ c.asked, location.IsLocation
  outside : c.root ∉ c.asked

namespace Cache.Logged

variable {fetcher : Fetcher} {c d : Cache}

theorem empty {root : Url} (h : root.WellFormed) (fetcher : Fetcher) :
    (Cache.empty root).Logged fetcher :=
  ⟨h, rfl, rfl, List.nodup_nil, by simp [Cache.empty], by simp [Cache.empty]⟩

/-- The log is about the requests and the documents. -/
theorem congr (h : c.Logged fetcher) (root : d.root = c.root)
    (documents : d.documents = c.documents) (fetches : d.fetches = c.fetches)
    (asked : d.asked = c.asked) : d.Logged fetcher where
  root := root ▸ h.root
  documents := by rw [documents, asked, h.documents]
  count := by rw [asked, fetches, h.count]
  once := by rw [asked]; exact h.once
  located := by rw [asked]; exact h.located
  outside := by rw [root, asked]; exact h.outside

/-- Exactly the locations in the log have outcomes. -/
theorem keys (h : c.Logged fetcher) : Entries.keys c.documents = c.asked.map Url.text := by
  rw [h.documents, Entries.keys]
  exact List.ext_getElem (by simp) (by simp)

/-- What has an outcome was asked for. -/
theorem mem_asked (h : c.Logged fetcher) {location : Url} (isLocation : location.IsLocation)
    {outcome : Except ResolveError Json}
    (found : Entries.find? location.text c.documents = some outcome) : location ∈ c.asked := by
  have member : location.text ∈ Entries.keys c.documents := by
    rw [← Entries.contains_iff, Entries.contains, found]
    rfl
  rw [h.keys] at member
  obtain ⟨other, asked, same⟩ := List.mem_map.1 member
  rwa [(h.located other asked).eq_of_text isLocation same] at asked

/-- A location outside the root is asked for only if it was not before. -/
theorem load (h : c.Logged fetcher) {location : Url} (isLocation : location.IsLocation)
    (outside : location ≠ c.root) : (c.load fetcher location).2.Logged fetcher := by
  unfold Cache.load
  split
  · exact h
  · rename_i absent
    have new : location.text ∉ c.asked.map Url.text := by
      rw [← h.keys, ← Entries.contains_iff, Entries.contains, absent]
      simp
    refine ⟨h.root, ?_, ?_, ?_, ?_, ?_⟩
    · simp only [List.mapIdx_concat, h.count, ← h.documents]
    · simp [h.count]
    · rw [List.map_append]
      refine h.once.append (List.nodup_singleton _) fun text before here => ?_
      rw [List.map_singleton, List.mem_singleton] at here
      exact new (here ▸ before)
    · intro other member
      rcases List.mem_append.1 member with member | member
      · exact h.located other member
      · rw [List.mem_singleton.1 member]
        exact isLocation
    · intro member
      rcases List.mem_append.1 member with member | member
      · exact h.outside member
      · exact outside (List.mem_singleton.1 member).symm

theorem mark (h : c.Logged fetcher) (key : TargetKey) : (c.mark key).2.Logged fetcher := by
  unfold Cache.mark
  split
  · exact h
  · exact h.congr rfl rfl rfl rfl

end Cache.Logged

/-! ## The log of a walk -/

section Walk

variable {setting : Setting} {p q : Pass} {t : Target} {name : String} {node : Node}

theorem Pass.logged_opened (name : String) (h : p.cache.Logged setting.fetcher)
    (isLocation : t.location.IsLocation) (outside : t.location ≠ p.cache.root) :
    (p.opened setting.fetcher t name).cache.Logged setting.fetcher := by
  have marked := h.mark t.key
  have loaded := marked.load isLocation (by rwa [Cache.root_mark])
  exact loaded.congr rfl rfl rfl rfl

theorem Pass.logged_closed (h : q.cache.Logged setting.fetcher) :
    (p.closed t name node q).cache.Logged setting.fetcher := by
  unfold closed released
  split
  · exact h.congr rfl rfl rfl rfl
  · exact h.congr rfl rfl rfl rfl

/-- Whatever comes of a reference, the log is kept if visits keep it. -/
theorem logged_merging {visit : Visit} {scope : Scope} {reference : String}
    {outcome : Except ResolveError String}
    (visits : ∀ {scope node p}, Scope.IsLocated scope → p.cache.Logged setting.fetcher →
      (visit scope node p).2.cache.Logged setting.fetcher)
    (fit : scope.IsLocated) (h : p.cache.Logged setting.fetcher)
    (merging : Merging setting visit scope reference p outcome q) :
    q.cache.Logged setting.fetcher := by
  have locates {t : Target} (located : Target.locate reference (scope.base p.cache.root) = .ok t) :
      t.location.IsLocation := (Target.isLocated_of_locate (fit.base h.root) located).location
  cases merging with
  | malformed => exact h
  | wholeRoot => exact h
  | backToRoot => exact h
  | known => exact h
  | unreadable located outside => exact h.load (locates located) outside
  | reused located outside =>
    exact (h.load (locates located) outside).congr rfl rfl rfl rfl
  | @merged t node node' natural name q located outside unnamed read placed visited =>
    have opened := Pass.logged_opened name h (locates located) outside
    have inside := @visits _ node _ (Scope.isLocated_external (locates located)) opened
    rw [Pass.opened, visited] at inside
    exact Pass.logged_closed inside

/-- **Walks keep the log.** -/
def requests (setting : Setting) : WalkLaw setting where
  Inv p := p.cache.Logged setting.fetcher
  Step _ _ _ := True
  Fit := Scope.IsLocated
  Done _ _ _ _ := True
  Cut _ _ := True
  step_nil _ := trivial
  step_append _ _ := trivial
  done_mono _ _ := trivial
  cut_mono _ _ := trivial
  tooDeep _ h := ⟨h, trivial, trivial⟩
  follows := by
    intro room visit scope r r' p q visits fit h follows
    have visits {scope : Scope} {node : Node} {p : Pass} (fit : scope.IsLocated)
        (h : p.cache.Logged setting.fetcher) :
        (visit scope node p).2.cache.Logged setting.fetcher := (visits fit h).1
    refine ⟨?_, trivial, trivial⟩
    cases follows with
    | kept =>
      obtain ⟨more, same⟩ := Pass.exists_checked setting.layout r.reference p
      rw [same]
      exact h
    | resolved _ merging => exact logged_merging visits fit h merging
    | failed _ merging =>
      have kept := logged_merging visits fit h merging
      exact kept

variable (setting)

theorem logged_resolveNode (a : Node) (h : p.cache.Logged setting.fetcher) :
    (resolveNode setting a p).2.cache.Logged setting.fetcher :=
  ((requests setting).walkNode (fullRoom setting) .root a Scope.isLocated_root p h).1

theorem logged_resolveField (a : Field) (h : p.cache.Logged setting.fetcher) :
    (resolveField setting a p).2.cache.Logged setting.fetcher :=
  ((requests setting).walkField (fullRoom setting) Scope.isLocated_root a p h).1

theorem logged_resolveAt (position : Nat) (h : p.cache.Logged setting.fetcher) :
    (resolveAt setting position p).2.cache.Logged setting.fetcher := by
  cases here : p.definitions[position]? with
  | none =>
    rw [resolveAt, run_bind, run_get]
    simp only [here]
    exact h
  | some entry =>
    obtain ⟨name, node⟩ := entry
    rw [resolveAt_run here]
    exact logged_resolveNode setting node h

theorem logged_resolveDefinitions (h : p.cache.Logged setting.fetcher) :
    (resolveDefinitions setting p).2.cache.Logged setting.fetcher := by
  rw [resolveDefinitions, run_bind, run_get]
  induction p.definitions.length with
  | zero => exact h
  | succ n ih =>
    rw [List.range_succ, forM_concat_run]
    exact logged_resolveAt setting n ih

end Walk

/-! ## The log of a session -/

section Session

variable {layout : Layout} {fetcher : Fetcher} {p : Pass}

theorem Call.logged_turn (call : Call) (h : p.cache.Logged fetcher) :
    (call.turn layout fetcher p).after.cache.Logged fetcher := by
  rw [← call.cache_begin] at h
  unfold Call.turn
  cases call.request with
  | node a =>
    cases a with
    | none => exact h
    | some a => exact logged_resolveNode ⟨layout, fetcher, call.options⟩ a h
  | field a =>
    cases a with
    | none => exact h
    | some a => exact logged_resolveField ⟨layout, fetcher, call.options⟩ a h
  | registry => exact logged_resolveDefinitions ⟨layout, fetcher, call.options⟩ h

theorem session_logged (calls : List Call) (h : p.cache.Logged fetcher) :
    ∀ turn ∈ session layout fetcher calls p, turn.after.cache.Logged fetcher := by
  induction calls generalizing p with
  | nil => simp [session]
  | cons call rest ih =>
    intro turn member
    have here : (call.turn layout fetcher p).after.cache.Logged fetcher := call.logged_turn h
    rcases List.mem_cons.1 member with rfl | member
    · exact here
    · exact ih here turn member

/-! ## Why something was asked for -/

/-- The references among the stops of a call are those that it met. -/
theorem Turn.Accounts.met {turn : Turn} {copies : List Copy}
    (h : turn.Accounts layout fetcher copies) {scope : Scope} {r : RefNode}
    (stop : .reference scope r ∈ allStops turn.stops copies) :
    ∃ r', turn.Met copies scope r r' := by
  have met {room : Nat} {before after : Turn.References}
      (walked : turn.Walked copies scope room before after)
      (here : (Stop.reference scope r).IsAt scope room before) :
      ∃ r', turn.Met copies scope r r' := by
    cases here with
    | reference place found within =>
      obtain ⟨r', there, -⟩ := optionRel_left (h.related walked place) found
      exact ⟨r', room, before, after, place, walked, within, found, there⟩
  have inRoot {room : Nat} {references : Turn.References}
      (here : (Stop.reference scope r).IsAt .root room references) : scope = .root := by
    cases here
    rfl
  rcases List.mem_append.1 stop with own | copied
  · have answered := h.answered
    cases asked : turn.call.request with
    | node a =>
      cases a with
      | none => simp [Turn.stops, asked] at own
      | some a =>
        obtain ⟨b, made⟩ := (asked ▸ answered).exists_node
        have here := Node.isAt_of_mem_stops (Turn.stops_node asked ▸ own)
        obtain rfl := inRoot here
        exact met (.node asked made) here
    | field a =>
      cases a with
      | none => simp [Turn.stops, asked] at own
      | some a =>
        obtain ⟨b, made⟩ := (asked ▸ answered).exists_field
        have here := Field.isAt_of_mem_stops (Turn.stops_field asked ▸ own)
        obtain rfl := inRoot here
        exact met (.field asked made) here
    | registry =>
      rw [Turn.stops_registry layout fetcher asked] at own
      obtain ⟨entry, member, own⟩ := List.mem_flatMap.1 own
      obtain ⟨i, before⟩ := List.mem_iff_getElem?.1 member
      obtain ⟨kept, after, keeps⟩ := h.kept
      obtain ⟨entry', there, -⟩ := optionRel_left (optionRel_get keeps i) before
      have here := Node.isAt_of_mem_stops own
      obtain rfl := inRoot here
      have there : turn.after.definitions[i]? = some entry' := by
        rw [after, List.getElem?_append_left (List.getElem?_eq_some_iff.1 there).1, there]
      exact met (.definition asked before there) here
  · obtain ⟨copy, member, own⟩ := List.mem_flatMap.1 copied
    have here := Node.isAt_of_mem_stops own
    obtain rfl : scope = .external copy.target.location := by
      cases here
      rfl
    exact met (.copy member) here

/-- A call met a reference that leads to a location. -/
def Turn.LedTo (turn : Turn) (copies : List Copy) (location : Url) : Prop :=
  ∃ scope r r' t, turn.Met copies scope r r' ∧ r.Leaves scope ∧
    Target.locate r.reference (scope.base turn.after.cache.root) = .ok t ∧ t.location = location

theorem Turn.Accounts.asked_ledTo {turn : Turn} {copies : List Copy}
    (h : turn.Accounts layout fetcher copies) {location : Url}
    (asked : location ∈ turn.after.cache.asked) :
    location ∈ turn.before.cache.asked ∨ turn.LedTo copies location := by
  refine (h.asked location asked).imp_right ?_
  rintro ⟨stop, isStop, asks⟩
  cases stop with
  | reference scope r =>
    obtain ⟨leaves, t, located, same⟩ := asks
    obtain ⟨r', met⟩ := h.met isStop
    exact ⟨scope, r, r', t, met, leaves, located, same⟩
  | tooDeep => exact asks.elim

/-- What was asked for during a session, and not before, is where a reference led that was met so
far. -/
theorem session_asked {calls : List Call} {added : List (List Copy)}
    (accounts : List.Forall₂ (Turn.Accounts layout fetcher) (session layout fetcher calls p) added)
    {earlier later : List (Turn × List Copy)} {turn : Turn} {copies : List Copy}
    (split : (session layout fetcher calls p).zip added = earlier ++ (turn, copies) :: later)
    {location : Url} (asked : location ∈ turn.after.cache.asked) :
    location ∈ p.cache.asked ∨
      ∃ past ∈ earlier ++ [(turn, copies)], past.1.LedTo past.2 location := by
  induction calls generalizing p added earlier with
  | nil => simp [session] at split
  | cons call rest ih =>
    rw [session] at accounts split
    obtain ⟨here, there, accounted, after, rfl⟩ := List.forall₂_cons_left_iff.1 accounts
    have same : (call.turn layout fetcher p).before.cache = p.cache := call.cache_begin p
    have first (asked : location ∈ (call.turn layout fetcher p).after.cache.asked) :
        location ∈ p.cache.asked ∨ (call.turn layout fetcher p).LedTo here location := by
      rw [← same]
      exact accounted.asked_ledTo asked
    rw [List.zip_cons_cons] at split
    cases earlier with
    | nil =>
      rw [List.nil_append, List.cons.injEq, Prod.mk.injEq] at split
      obtain ⟨⟨rfl, rfl⟩, -⟩ := split
      exact (first asked).imp_right fun led => ⟨_, List.mem_singleton_self _, led⟩
    | cons past earlier =>
      rw [List.cons_append, List.cons.injEq] at split
      obtain ⟨rfl, split⟩ := split
      rcases ih after split with before | ⟨past, member, led⟩
      · exact (first before).imp_right fun led => ⟨_, List.mem_cons_self .., led⟩
      · exact .inr ⟨past, List.mem_cons_of_mem _ member, led⟩

end Session

/-- **At most one request for each document, and none for the root.** After every call of a session
the log has no location twice, neither the root nor a location with a fragment, and as many entries
as were counted; what the cache has of a document is what the fetcher answered at that turn. Each
location is where a reference leads that was met so far, in what was asked for or in a fragment that
was merged. -/
theorem session_requests {root : Url} (h : root.IsLocation) (layout : Layout) (fetcher : Fetcher)
    (definitions : Definitions) (calls : List Call) :
    let turns := session layout fetcher calls (Pass.start definitions (Cache.empty root))
    ∃ added : List (List Copy), List.Forall₂ (Turn.Grew layout fetcher) turns added ∧
      ∀ earlier turn copies later, turns.zip added = earlier ++ (turn, copies) :: later →
        turn.after.cache.root = root ∧ turn.after.cache.Logged fetcher ∧
        ∀ location ∈ turn.after.cache.asked,
          ∃ past ∈ earlier ++ [(turn, copies)], past.1.LedTo past.2 location := by
  intro turns
  obtain ⟨added, q, accounts, adds, -, later⟩ :=
    session_accounts (p := Pass.start definitions (Cache.empty root)) calls
      (Cache.sound_empty h.wellFormed layout fetcher)
  have isRoot : q.cache.root = root := adds.cache.root
  refine ⟨added, accounts.imp fun _ _ => Turn.Accounts.toGrew, ?_⟩
  intro earlier turn copies rest split
  have member : turn ∈ turns := by
    have member : (turn, copies) ∈ turns.zip added := by simp [split]
    exact (List.of_mem_zip member).1
  refine ⟨(later turn member).root.symm.trans isRoot,
    session_logged calls (.empty h.wellFormed fetcher) turn member, fun location asked => ?_⟩
  refine (session_asked accounts split asked).resolve_left ?_
  simp [Pass.start, Cache.empty]

/-- The second call of the sample refers to the document that the first one asked for. -/
theorem session_requests_sample : Sample.root.IsLocation ∧
    (Sample.turns.map fun turn => (turn.after.cache.asked.map Url.text, turn.after.cache.fetches))
      = [(["file:///pets.yaml"], 1), (["file:///pets.yaml"], 1)] ∧
    ∃ added, List.Forall₂ (Turn.Grew .swagger2 Sample.fetcher) Sample.turns added ∧
      ∀ earlier turn copies later, Sample.turns.zip added = earlier ++ (turn, copies) :: later →
        turn.after.cache.Logged Sample.fetcher := by
  have located : Sample.root.IsLocation :=
    Options.isLocation_of_rootUrl (rfl : Options.default.rootUrl = .ok Sample.root)
  obtain ⟨added, grew, requests⟩ :=
    session_requests located .swagger2 Sample.fetcher Sample.document.definitions Sample.calls
  refine ⟨located, by decide +kernel, added, grew, fun earlier turn copies later split => ?_⟩
  exact (requests earlier turn copies later split).2.1

end SchemaBundle
