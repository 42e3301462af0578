import Mathlib.Data.Finset.Card
import SchemaBundle.Cache

/-!
# What a cache recalls

A cache is used in any order: locations are loaded, names recorded and looked up, marks set and
cleared. What it answers is decided by the operations that came before (`Cache.after`): the document
of a location by the first load of its text, the name of a fragment by the last record, a reserved
name by any record at all, and a mark by the last marking or clearing of its fragment.

The tables of a cache agree with the history of its operations in this way (`Cache.Recalls`). An
empty cache agrees with no history, and one more operation keeps the agreement (`Recalls.apply`), so
it holds after every history; `Cache.after_recalls` says what it means for the answers. Fetchers may
change their answers from request to request.
-/

namespace SchemaBundle.Cache

/-- An operation on a cache. -/
inductive Op
  /-- Ask for the document at a location. -/
  | load (location : Url)
  /-- Look up the name of a fragment. -/
  | lookUp (key : TargetKey)
  /-- Record the name of a fragment. -/
  | record (key : TargetKey) (name : String)
  /-- Mark a fragment as being merged. -/
  | mark (key : TargetKey)
  /-- Clear the mark of a fragment. -/
  | finish (key : TargetKey)
  /-- Ask whether a name was handed out. -/
  | askReserved (name : String)

namespace Op

/-- The cache behind an operation. -/
def apply (fetcher : Fetcher) (c : Cache) : Op → Cache
  | load location => (c.load fetcher location).2
  | record key name => c.record key name
  | mark key => (c.mark key).2
  | finish key => c.finish key
  | lookUp _ | askReserved _ => c

/-- The text of the location that an operation loads. -/
def loadedText? : Op → Option String
  | load location => some location.text
  | _ => none

/-- Whether an operation records a name of this fragment. -/
def Names (key : TargetKey) : Op → Prop
  | record other _ => other = key
  | _ => False

/-- Whether an operation sets or clears the mark of this fragment. -/
def Marks (key : TargetKey) : Op → Prop
  | mark other | finish other => other = key
  | _ => False

/-- Two caches are the same but for the tables of an operation. -/
def SameElsewhere : Op → Cache → Cache → Prop
  | load _, c, d => ∃ documents fetches asked, d = { c with documents, fetches, asked }
  | record _ _, c, d => ∃ names reserved, d = { c with names, reserved }
  | mark _, c, d | finish _, c, d => ∃ inProgress, d = { c with inProgress }
  | lookUp _, c, d | askReserved _, c, d => d = c

/-- **An operation leaves the tables of the others alone.** -/
theorem sameElsewhere_apply (fetcher : Fetcher) (c : Cache) (op : Op) :
    op.SameElsewhere c (op.apply fetcher c) := by
  cases op with
  | load location =>
    show ∃ documents fetches asked,
      (c.load fetcher location).2 = { c with documents, fetches, asked }
    unfold Cache.load
    split
    · exact ⟨c.documents, c.fetches, c.asked, rfl⟩
    · exact ⟨_, _, _, rfl⟩
  | record key name => exact ⟨_, _, rfl⟩
  | mark key =>
    show ∃ inProgress, (c.mark key).2 = { c with inProgress }
    unfold Cache.mark
    split
    · exact ⟨c.inProgress, rfl⟩
    · exact ⟨_, rfl⟩
  | finish key => exact ⟨_, rfl⟩
  | lookUp key => exact rfl
  | askReserved name => exact rfl

end Op

/-- The cache behind a history of operations, the earliest first. -/
def after (fetcher : Fetcher) (root : Url) (past : List Op) : Cache :=
  past.foldl (Op.apply fetcher) (empty root)

/-- The texts of the locations that a history loads. -/
def loadedTexts (past : List Op) : Finset String :=
  (past.filterMap Op.loadedText?).toFinset

/-- The operation is the last one of the history that is about something. -/
def LastAbout (about : Op → Prop) (past : List Op) (op : Op) : Prop :=
  about op ∧ ∃ before later, past = before ++ op :: later ∧ ∀ other ∈ later, ¬ about other

/-- The location is the first of its text that the history loads, with this history before it. -/
def FirstLoad (past before : List Op) (location : Url) : Prop :=
  location.text ∉ loadedTexts before ∧ ∃ later, past = before ++ Op.load location :: later

section History

variable {past before : List Op} {op last : Op} {location : Url} {about : Op → Prop}

theorem after_concat (fetcher : Fetcher) (root : Url) (past : List Op) (op : Op) :
    after fetcher root (past ++ [op]) = op.apply fetcher (after fetcher root past) := by
  simp [after]

theorem mem_loadedTexts {text : String} :
    text ∈ loadedTexts past ↔ ∃ location, Op.load location ∈ past ∧ location.text = text := by
  rw [loadedTexts, List.mem_toFinset, List.mem_filterMap]
  constructor
  · rintro ⟨op, member, loads⟩
    cases op with
    | load location => exact ⟨location, member, Option.some.inj loads⟩
    | _ => cases loads
  · rintro ⟨location, member, rfl⟩
    exact ⟨_, member, rfl⟩

theorem loadedTexts_concat_load (past : List Op) (location : Url) :
    loadedTexts (past ++ [.load location]) = insert location.text (loadedTexts past) := by
  ext text
  simp [loadedTexts, Op.loadedText?]

theorem loadedTexts_concat (past : List Op) (other : last.loadedText? = none) :
    loadedTexts (past ++ [last]) = loadedTexts past := by
  simp [loadedTexts, other]

/-- An operation within a history that has one more at its end. -/
theorem concat_eq_append_cons {later : List Op} :
    past ++ [last] = before ++ op :: later ↔
      (later = [] ∧ before = past ∧ op = last) ∨
        ∃ rest, later = rest ++ [last] ∧ past = before ++ op :: rest := by
  constructor
  · intro same
    rcases List.eq_nil_or_concat later with rfl | ⟨rest, final, rfl⟩
    · obtain ⟨rfl, ends⟩ := List.append_inj' same rfl
      exact .inl ⟨rfl, rfl, (List.cons.inj ends).1.symm⟩
    · rw [List.concat_eq_append, ← List.cons_append, ← List.append_assoc] at same
      obtain ⟨rfl, ends⟩ := List.append_inj' same rfl
      exact .inr ⟨rest, by rw [(List.cons.inj ends).1, List.concat_eq_append], rfl⟩
  · rintro (⟨rfl, rfl, rfl⟩ | ⟨rest, rfl, rfl⟩)
    · rfl
    · simp

/-- The last operation about something is the one at the end, or else the last one before. -/
theorem lastAbout_concat :
    LastAbout about (past ++ [last]) op ↔
      (about last ∧ op = last) ∨ (¬ about last ∧ LastAbout about past op) := by
  constructor
  · rintro ⟨isAbout, before, later, same, none⟩
    rcases concat_eq_append_cons.1 same with ⟨rfl, rfl, rfl⟩ | ⟨rest, rfl, rfl⟩
    · exact .inl ⟨isAbout, rfl⟩
    · rw [List.forall_mem_append] at none
      exact .inr ⟨none.2 last (by simp), isAbout, before, rest, rfl, none.1⟩
  · rintro (⟨isAbout, rfl⟩ | ⟨other, isAbout, before, rest, rfl, none⟩)
    · exact ⟨isAbout, past, [], rfl, by simp⟩
    · refine ⟨isAbout, before, rest ++ [last], by simp, ?_⟩
      rw [List.forall_mem_append]
      exact ⟨none, by simpa using other⟩

/-- There is at most one last operation about something. -/
theorem LastAbout.eq {other : Op} (h : LastAbout about past op) (h' : LastAbout about past other) :
    op = other := by
  induction past using List.reverseRecOn with
  | nil =>
    obtain ⟨-, before, later, same, -⟩ := h
    simp at same
  | append_singleton past last ih =>
    rcases lastAbout_concat.1 h with ⟨isAbout, rfl⟩ | ⟨isOther, h⟩
    · rcases lastAbout_concat.1 h' with ⟨-, rfl⟩ | ⟨isOther, -⟩
      · rfl
      · exact absurd isAbout isOther
    · rcases lastAbout_concat.1 h' with ⟨isAbout, -⟩ | ⟨-, h'⟩
      · exact absurd isAbout isOther
      · exact ih h h'

theorem firstLoad_concat :
    FirstLoad (past ++ [last]) before location ↔
      (location.text ∉ loadedTexts before ∧ before = past ∧ last = .load location) ∨
        FirstLoad past before location := by
  constructor
  · rintro ⟨new, later, same⟩
    rcases concat_eq_append_cons.1 same with ⟨-, isPast, isLast⟩ | ⟨rest, -, same⟩
    · exact .inl ⟨new, isPast, isLast.symm⟩
    · exact .inr ⟨new, rest, same⟩
  · rintro (⟨new, rfl, rfl⟩ | ⟨new, rest, rfl⟩)
    · exact ⟨new, [], rfl⟩
    · exact ⟨new, rest ++ [last], by simp⟩

/-- A text that was loaded was loaded a first time. -/
theorem exists_firstLoad {text : String} (member : text ∈ loadedTexts past) :
    ∃ before location, FirstLoad past before location ∧ location.text = text := by
  induction past using List.reverseRecOn with
  | nil => simp [loadedTexts] at member
  | append_singleton past last ih =>
    by_cases old : text ∈ loadedTexts past
    · obtain ⟨before, location, first, same⟩ := ih old
      exact ⟨before, location, firstLoad_concat.2 (.inr first), same⟩
    · obtain ⟨location, loads, rfl⟩ := mem_loadedTexts.1 member
      rcases List.mem_append.1 loads with earlier | here
      · exact absurd (mem_loadedTexts.2 ⟨location, earlier, rfl⟩) old
      · obtain rfl := List.mem_singleton.1 here
        exact ⟨past, location, firstLoad_concat.2 (.inl ⟨old, rfl, rfl⟩), rfl⟩

end History

/-! ## Agreement with the history -/

/-- The tables of a cache agree with a history. -/
structure Recalls (fetcher : Fetcher) (past : List Op) (c : Cache) : Prop where
  /-- The outcome of a text is what was fetched at the first load. -/
  outcome : ∀ before location, FirstLoad past before location →
    Entries.find? location.text c.documents
      = some (fetchDocument fetcher (loadedTexts before).card location)
  unknown : ∀ text ∉ loadedTexts past, Entries.find? text c.documents = none
  count : c.fetches = (loadedTexts past).card
  name : ∀ key name,
    c.localName? key = some name ↔ LastAbout (Op.Names key) past (.record key name)
  reserved : ∀ name, c.isReserved name = true ↔ ∃ key, Op.record key name ∈ past
  marked : ∀ key, c.isInProgress key = true ↔ LastAbout (Op.Marks key) past (.mark key)

namespace Recalls

variable {fetcher : Fetcher} {past : List Op} {c d : Cache} {last : Op}

theorem empty (fetcher : Fetcher) (root : Url) : Recalls fetcher [] (empty root) where
  outcome := by
    rintro before location ⟨-, later, same⟩
    simp at same
  unknown := fun text _ => rfl
  count := rfl
  name key name := by simp [Cache.empty, localName?, LastAbout]
  reserved name := by simp [Cache.empty, isReserved]
  marked key := by simp [Cache.empty, isInProgress, LastAbout]

/-! What an operation that is about another table keeps. -/

section Frame

/-- Documents are kept by what loads nothing. -/
theorem documents_of (h : Recalls fetcher past c) (last : Op) (other : last.loadedText? = none)
    (documents : d.documents = c.documents) :
    (∀ before location, FirstLoad (past ++ [last]) before location →
      Entries.find? location.text d.documents
        = some (fetchDocument fetcher (loadedTexts before).card location)) ∧
      ∀ text ∉ loadedTexts (past ++ [last]), Entries.find? text d.documents = none := by
  rw [documents, loadedTexts_concat past other]
  refine ⟨fun before location first => ?_, h.unknown⟩
  rcases firstLoad_concat.1 first with ⟨-, -, rfl⟩ | first
  · cases other
  · exact h.outcome before location first

/-- Names are kept by what records none. -/
theorem names_of (h : Recalls fetcher past c) (last : Op) (other : ∀ key, ¬ last.Names key)
    (names : d.names = c.names) (reserved : d.reserved = c.reserved) :
    (∀ key name, d.localName? key = some name ↔
      LastAbout (Op.Names key) (past ++ [last]) (.record key name)) ∧
      ∀ name, d.isReserved name = true ↔ ∃ key, Op.record key name ∈ past ++ [last] := by
  constructor
  · intro key name
    rw [lastAbout_concat, localName?, names, ← localName?, h.name]
    simp [other]
  · intro name
    have unlike (key : TargetKey) : Op.record key name ≠ last := by
      rintro rfl
      exact other key rfl
    rw [isReserved, reserved, ← isReserved, h.reserved]
    simp [unlike]

/-- Marks are kept by what sets and clears none. -/
theorem marks_of (h : Recalls fetcher past c) (last : Op) (other : ∀ key, ¬ last.Marks key)
    (inProgress : d.inProgress = c.inProgress) (key : TargetKey) :
    d.isInProgress key = true ↔ LastAbout (Op.Marks key) (past ++ [last]) (.mark key) := by
  rw [lastAbout_concat, isInProgress, inProgress, ← isInProgress, h.marked]
  simp [other]

end Frame

/-- The first load of a text fetches; any other changes nothing. -/
theorem load (h : Recalls fetcher past c) (location : Url) :
    Recalls fetcher (past ++ [.load location]) (c.load fetcher location).2 := by
  have names := h.names_of (.load location) (fun _ => id)
    (names_load fetcher location c) (reserved_load fetcher location c)
  have marks := h.marks_of (.load location) (fun _ => id)
    (inProgress_load fetcher location c)
  rcases load_cases fetcher location c with unchanged | ⟨absent, loaded⟩
  · have old : location.text ∈ loadedTexts past := by
      by_contra new
      have fetched := congrArg Cache.fetches unchanged
      simp [Cache.load, h.unknown _ new] at fetched
    have texts : loadedTexts (past ++ [.load location]) = loadedTexts past := by
      rw [loadedTexts_concat_load, Finset.insert_eq_of_mem old]
    rw [unchanged] at names marks ⊢
    refine ⟨fun before other first => ?_, texts ▸ h.unknown, texts ▸ h.count, names.1, names.2,
      marks⟩
    rcases firstLoad_concat.1 first with ⟨new, rfl, isLast⟩ | first
    · obtain rfl := Op.load.inj isLast
      exact absurd old new
    · exact h.outcome before other first
  · have new : location.text ∉ loadedTexts past := by
      intro old
      obtain ⟨before, other, first, same⟩ := exists_firstLoad old
      have found := h.outcome before other first
      rw [same, absent] at found
      cases found
    refine ⟨fun before other first => ?_, fun text new => ?_, ?_, names.1, names.2, marks⟩
    · rw [loaded]
      rcases firstLoad_concat.1 first with ⟨-, rfl, isLast⟩ | first
      · obtain rfl := Op.load.inj isLast
        rw [← h.count]
        exact Entries.find?_append_self absent _
      · exact Entries.find?_append_of_some (h.outcome before other first) _
    · rw [loadedTexts_concat_load, Finset.mem_insert, not_or] at new
      rw [loaded]
      exact (Entries.find?_append_of_ne new.1 _ _).trans (h.unknown text new.2)
    · rw [loaded, loadedTexts_concat_load, Finset.card_insert_of_notMem new, ← h.count]

theorem record (h : Recalls fetcher past c) (key : TargetKey) (name : String) :
    Recalls fetcher (past ++ [.record key name]) (c.record key name) := by
  have documents := h.documents_of (.record key name) rfl (documents_record key name c)
  have marks := h.marks_of (.record key name) (d := c.record key name) (fun _ => id) rfl
  refine ⟨documents.1, documents.2, ?_, fun other name' => ?_, fun name' => ?_, marks⟩
  · rw [loadedTexts_concat past rfl]
    exact h.count
  · rw [lastAbout_concat]
    by_cases same : key = other
    · subst same
      simp [localName?_record_self, Op.Names, eq_comm]
    · rw [localName?_record_of_ne same, h.name]
      simp [Op.Names, same]
  · rw [isReserved_record, h.reserved]
    simp only [List.mem_append, List.mem_singleton, Op.record.injEq]
    constructor
    · rintro (rfl | ⟨other, member⟩)
      · exact ⟨key, .inr ⟨rfl, rfl⟩⟩
      · exact ⟨other, .inl member⟩
    · rintro ⟨other, member | ⟨-, rfl⟩⟩
      · exact .inr ⟨other, member⟩
      · exact .inl rfl

/-- What sets or clears the mark of a fragment decides about that mark alone. -/
theorem of_marks (h : Recalls fetcher past c) {key : TargetKey}
    (about : ∀ other, last.Marks other ↔ key = other) (unnamed : ∀ key, ¬ last.Names key)
    (unloaded : last.loadedText? = none) (frame : ∃ inProgress, d = { c with inProgress })
    (marks : ∀ other, d.isInProgress other = true ↔
      key = other ∧ last = .mark key ∨ key ≠ other ∧ c.isInProgress other = true) :
    Recalls fetcher (past ++ [last]) d := by
  obtain ⟨inProgress, rfl⟩ := frame
  have documents := h.documents_of last (d := { c with inProgress }) unloaded rfl
  have names := h.names_of last (d := { c with inProgress }) unnamed rfl rfl
  refine ⟨documents.1, documents.2, ?_, names.1, names.2, fun other => ?_⟩
  · rw [loadedTexts_concat past unloaded]
    exact h.count
  · rw [lastAbout_concat, marks, about, h.marked]
    apply or_congr_left
    apply and_congr_right
    rintro rfl
    exact eq_comm

theorem mark (h : Recalls fetcher past c) (key : TargetKey) :
    Recalls fetcher (past ++ [.mark key]) (c.mark key).2 := by
  apply h.of_marks (fun _ => .rfl) (fun _ => id) rfl (Op.sameElsewhere_apply fetcher c (.mark key))
  intro other
  apply (isInProgress_mark key other c).trans
  by_cases same : key = other
  · simp [same]
  · simp [same, Ne.symm same]

theorem finish (h : Recalls fetcher past c) (key : TargetKey) :
    Recalls fetcher (past ++ [.finish key]) (c.finish key) := by
  apply h.of_marks (fun _ => .rfl) (fun _ => id) rfl
    (Op.sameElsewhere_apply fetcher c (.finish key))
  intro other
  apply (isInProgress_finish key other c).trans
  simp [ne_comm]

/-- Looking up leaves all as it is. -/
theorem of_unchanged (h : Recalls fetcher past c) (unnamed : ∀ key, ¬ last.Names key)
    (unmarked : ∀ key, ¬ last.Marks key) (unloaded : last.loadedText? = none) :
    Recalls fetcher (past ++ [last]) c := by
  have documents := h.documents_of last (d := c) unloaded rfl
  have names := h.names_of last (d := c) unnamed rfl rfl
  refine ⟨documents.1, documents.2, ?_, names.1, names.2, h.marks_of last unmarked rfl⟩
  rw [loadedTexts_concat past unloaded]
  exact h.count

/-- **One more operation keeps the agreement.** -/
theorem apply (h : Recalls fetcher past c) (op : Op) :
    Recalls fetcher (past ++ [op]) (op.apply fetcher c) := by
  cases op with
  | load location => exact h.load location
  | record key name => exact h.record key name
  | mark key => exact h.mark key
  | finish key => exact h.finish key
  | lookUp key => exact h.of_unchanged (fun _ => id) (fun _ => id) rfl
  | askReserved name => exact h.of_unchanged (fun _ => id) (fun _ => id) rfl

end Recalls

/-- A cache agrees with all that was done to it. -/
theorem recalls_after (fetcher : Fetcher) (root : Url) (past : List Op) :
    Recalls fetcher past (after fetcher root past) := by
  induction past using List.reverseRecOn with
  | nil => exact .empty fetcher root
  | append_singleton past op ih =>
    rw [after_concat]
    exact ih.apply op

namespace Recalls

variable {fetcher : Fetcher} {past : List Op} {c : Cache}

/-- A text that was loaded is answered as it was at first. -/
theorem load_eq (h : Recalls fetcher past c) {before : List Op} {first location : Url}
    (isFirst : FirstLoad past before first) (same : location.text = first.text) :
    (c.load fetcher location).1
      = fetchDocument fetcher (loadedTexts before).card first := by
  have found := h.outcome before first isFirst
  rw [← same] at found
  simp [Cache.load, found]

/-- A text that was not loaded is fetched. -/
theorem load_eq_of_new (h : Recalls fetcher past c) {location : Url}
    (new : location.text ∉ loadedTexts past) :
    (c.load fetcher location).1 = fetchDocument fetcher (loadedTexts past).card location := by
  have absent := h.unknown _ new
  simp [Cache.load, absent, h.count]

/-- A mark is new unless the last that happened to the fragment was a marking. -/
theorem mark_iff (h : Recalls fetcher past c) (key : TargetKey) :
    (c.mark key).1 = true ↔ ∀ op, LastAbout (Op.Marks key) past op → op = .finish key := by
  have fresh : (c.mark key).1 = true ↔ ¬ c.isInProgress key = true := by
    unfold Cache.mark
    split
    · simp_all
    · simp_all
  rw [fresh, h.marked]
  constructor
  · intro unmarked op isLast
    have about := isLast.1
    cases op with
    | mark other =>
      obtain rfl : other = key := about
      exact absurd isLast unmarked
    | finish other =>
      obtain rfl : other = key := about
      rfl
    | _ => exact about.elim
  · intro cleared isLast
    cases cleared _ isLast

end Recalls

/-- **A cache answers from its history.** After any operations in any order, whatever the fetcher
answers from one request to the next: a location is answered as at the first load of its text, which
asked the fetcher; the requests are as many as the texts that were loaded; a fragment has the name
that was recorded for it last; a name is reserved if it was ever recorded for any fragment; and a
mark is new if the last that happened to the fragment, if anything, was that its mark was cleared.
No operation changes the tables of another. -/
theorem after_recalls (fetcher : Fetcher) (root : Url) (past : List Op) :
    let c := after fetcher root past
    (∀ before first location, FirstLoad past before first → location.text = first.text →
      (c.load fetcher location).1 = ((after fetcher root before).load fetcher first).1 ∧
      (c.load fetcher location).1 = fetchDocument fetcher (loadedTexts before).card first) ∧
    c.fetches = (loadedTexts past).card ∧
    (∀ key name, c.localName? key = some name ↔
      LastAbout (Op.Names key) past (.record key name)) ∧
    (∀ name, c.isReserved name = true ↔ ∃ key, Op.record key name ∈ past) ∧
    (∀ key, (c.mark key).1 = true ↔ ∀ op, LastAbout (Op.Marks key) past op → op = .finish key) ∧
    ∀ op : Op, op.SameElsewhere c (op.apply fetcher c) := by
  have recalls := recalls_after fetcher root past
  refine ⟨fun before first location isFirst same => ?_, recalls.count, recalls.name,
    recalls.reserved, recalls.mark_iff, Op.sameElsewhere_apply fetcher _⟩
  have now := recalls.load_eq isFirst same
  have then' := (recalls_after fetcher root before).load_eq_of_new isFirst.1
  exact ⟨now.trans then'.symm, now⟩

/-! ## A fetcher that changes its mind -/

namespace Sample

/-- The root document. -/
def start : Url :=
  ⟨"file", some ⟨"", "", none⟩, .rooted ["swagger.yaml"], none, none⟩

/-- A file beside it. -/
def pets : Url :=
  ⟨"file", some ⟨"", "", none⟩, .rooted ["pets.yaml"], none, none⟩

/-- A definition in it. -/
def pet : TargetKey :=
  ⟨"file:///pets.yaml", "/Pet"⟩

/-- Nothing is found at the first request, and null from then on. -/
def late : Fetcher where
  answer turn location :=
    if turn = 0 then .error (.notFound location.text) else .ok "null".toUTF8.toList

/-- The file is loaded twice, and its definition is named twice and marked for a while. -/
def past : List Op :=
  [.load pets, .record pet "Pet", .mark pet, .load pets, .finish pet, .record pet "Pet_1"]

end Sample

/-- The file stays unfound, at one request; the later name stands, and both are reserved; and the
definition can be marked again. -/
theorem after_recalls_late :
    let c := after Sample.late Sample.start Sample.past
    FirstLoad Sample.past [] Sample.pets ∧
    (c.load Sample.late Sample.pets).1
      = .error (.fetch "file:///pets.yaml" "No document registered at file:///pets.yaml") ∧
    c.fetches = 1 ∧ c.localName? Sample.pet = some "Pet_1" ∧
    c.isReserved "Pet" = true ∧ c.isReserved "Pet_1" = true ∧ (c.mark Sample.pet).1 = true := by
  have first : FirstLoad Sample.past [] Sample.pets := ⟨by simp [loadedTexts], _, rfl⟩
  obtain ⟨loads, count, name, reserved, mark, -⟩ :=
    after_recalls Sample.late Sample.start Sample.past
  have named : LastAbout (Op.Names Sample.pet) Sample.past (.record Sample.pet "Pet_1") :=
    ⟨rfl, Sample.past.dropLast, [], rfl, by simp⟩
  refine ⟨first, ?_, count.trans (by decide), (name _ _).2 named,
    (reserved _).2 ⟨Sample.pet, by simp [Sample.past]⟩,
    (reserved _).2 ⟨Sample.pet, by simp [Sample.past]⟩, (mark _).2 fun op isLast => ?_⟩
  · exact (loads [] Sample.pets Sample.pets first rfl).2.trans rfl
  · have finished : LastAbout (Op.Marks Sample.pet) Sample.past (.finish Sample.pet) :=
      ⟨rfl, Sample.past.take 4, [.record Sample.pet "Pet_1"], rfl, by simp [Op.Marks]⟩
    exact isLast.eq finished

end SchemaBundle.Cache
