import SchemaBundle.Fetch
import SchemaBundle.Reference.Target
import SchemaBundle.Yaml.Load

/-!
# What a resolution pass remembers

A cache belongs to one root document. Every location is asked of the fetcher at most once, failures
included: `Cache.load` replays the first outcome. The cache also knows which registry name each
merged fragment received, which names were ever handed out, and which fragments are being merged.
-/

namespace SchemaBundle

/-- The memory of a pass over one root document. -/
structure Cache where
  /-- The location of the root document, which is never fetched. -/
  root : Url
  /-- The outcome of loading each location, by its text. -/
  documents : Entries (Except ResolveError Json)
  /-- Names of merged fragments, the latest first. -/
  names : List (TargetKey × String)
  /-- Fragments being merged. -/
  inProgress : List TargetKey
  /-- Names handed out to fragments, the latest first. -/
  reserved : List String
  /-- Number of requests made. -/
  fetches : Nat
  /-- The locations requested, in order. -/
  asked : List Url

namespace Cache

/-- The cache of a new pass. -/
def empty (root : Url) : Cache :=
  ⟨root, [], [], [], [], 0, []⟩

/-- Fetch and read a document. What the reader says of one that it refuses is passed on. -/
def fetchDocument (fetcher : Fetcher) (turn : Nat) (location : Url) : Except ResolveError Json :=
  match fetcher.answer turn location with
  | .error e => .error (.fetch location.text e.message)
  | .ok bytes =>
    match loadJson bytes with
    | .ok value => .ok value
    | .error _ => .error (.parse location.text (fetcher.words bytes))

/-- The document at a location, fetched on first use. -/
def load (fetcher : Fetcher) (location : Url) (cache : Cache) :
    Except ResolveError Json × Cache :=
  match Entries.find? location.text cache.documents with
  | some outcome => (outcome, cache)
  | none =>
    let outcome := fetchDocument fetcher cache.fetches location
    (outcome, { cache with
      documents := cache.documents ++ [(location.text, outcome)]
      fetches := cache.fetches + 1
      asked := cache.asked ++ [location] })

/-- The registry name that a fragment has received. -/
def localName? (key : TargetKey) (cache : Cache) : Option String :=
  (cache.names.find? fun entry => entry.1 = key).map (·.2)

/-- Give a fragment a registry name, and hand the name out. -/
def record (key : TargetKey) (name : String) (cache : Cache) : Cache :=
  { cache with names := (key, name) :: cache.names, reserved := name :: cache.reserved }

/-- Whether a fragment is being merged. -/
def isInProgress (key : TargetKey) (cache : Cache) : Bool :=
  cache.inProgress.contains key

/-- Mark a fragment as being merged; the answer says whether it was not. -/
def mark (key : TargetKey) (cache : Cache) : Bool × Cache :=
  if cache.isInProgress key then (false, cache)
  else (true, { cache with inProgress := key :: cache.inProgress })

/-- Clear the mark of a fragment. -/
def finish (key : TargetKey) (cache : Cache) : Cache :=
  { cache with inProgress := cache.inProgress.filter fun other => other ≠ key }

/-- Whether a name was ever handed out to a fragment. -/
def isReserved (name : String) (cache : Cache) : Bool :=
  cache.reserved.contains name

/-! ## What the operations leave alone -/

section Frame

variable (fetcher : Fetcher) (location : Url) (key : TargetKey) (name : String) (cache : Cache)

@[simp] theorem root_load : (cache.load fetcher location).2.root = cache.root := by
  unfold load; split <;> rfl

@[simp] theorem names_load : (cache.load fetcher location).2.names = cache.names := by
  unfold load; split <;> rfl

@[simp] theorem reserved_load : (cache.load fetcher location).2.reserved = cache.reserved := by
  unfold load; split <;> rfl

@[simp] theorem inProgress_load :
    (cache.load fetcher location).2.inProgress = cache.inProgress := by
  unfold load; split <;> rfl

@[simp] theorem localName?_load :
    (cache.load fetcher location).2.localName? key = cache.localName? key := by
  simp [localName?]

@[simp] theorem isReserved_load :
    (cache.load fetcher location).2.isReserved name = cache.isReserved name := by
  simp [isReserved]

@[simp] theorem root_record : (cache.record key name).root = cache.root := rfl

@[simp] theorem documents_record : (cache.record key name).documents = cache.documents := rfl

@[simp] theorem root_mark : (cache.mark key).2.root = cache.root := by
  unfold mark; split <;> rfl

@[simp] theorem documents_mark : (cache.mark key).2.documents = cache.documents := by
  unfold mark; split <;> rfl

@[simp] theorem names_mark : (cache.mark key).2.names = cache.names := by
  unfold mark; split <;> rfl

@[simp] theorem reserved_mark : (cache.mark key).2.reserved = cache.reserved := by
  unfold mark; split <;> rfl

@[simp] theorem localName?_mark (other : TargetKey) :
    (cache.mark key).2.localName? other = cache.localName? other := by
  simp [localName?]

theorem load_mark : (cache.mark key).2.load fetcher location
    = ((cache.load fetcher location).1, ((cache.load fetcher location).2.mark key).2) := by
  unfold load mark isInProgress
  split <;> split <;> simp_all

theorem record_mark (other : TargetKey) :
    (cache.mark key).2.record other name = ((cache.record other name).mark key).2 := by
  unfold mark isInProgress record
  split <;> rfl

theorem isInProgress_load : (cache.load fetcher location).2.isInProgress key
    = cache.isInProgress key := by
  unfold load isInProgress; split <;> rfl

theorem mark_of_isInProgress {key : TargetKey} {cache : Cache} (h : cache.isInProgress key = true) :
    (cache.mark key).2 = cache := by
  simp [mark, h]

/-- A mark that was made is cleared without a trace. -/
theorem finish_mark {key : TargetKey} {cache : Cache} (h : cache.isInProgress key = false) :
    (cache.mark key).2.finish key = cache := by
  have absent : key ∉ cache.inProgress := by simpa [isInProgress] using h
  have same : cache.inProgress.filter (fun other => other ≠ key) = cache.inProgress := by
    rw [List.filter_eq_self]
    intro other member
    have ne : other ≠ key := fun e => absent (e ▸ member)
    simpa using ne
  simp only [mark, h, finish, Bool.false_eq_true, if_false, ne_eq, not_true_eq_false,
    decide_false, List.filter_cons_of_neg, not_false_eq_true]
  rw [same]

end Frame

/-! ## What the operations do -/

theorem localName?_record_self (key : TargetKey) (name : String) (cache : Cache) :
    (cache.record key name).localName? key = some name := by
  simp [record, localName?]

theorem localName?_record_of_ne {key other : TargetKey} (h : key ≠ other) (name : String)
    (cache : Cache) : (cache.record key name).localName? other = cache.localName? other := by
  simp [record, localName?, h]

theorem isReserved_record (key : TargetKey) (name other : String) (cache : Cache) :
    (cache.record key name).isReserved other ↔ other = name ∨ cache.isReserved other := by
  simp [record, isReserved]

theorem isInProgress_mark (key other : TargetKey) (cache : Cache) :
    (cache.mark key).2.isInProgress other = true ↔
      other = key ∨ cache.isInProgress other = true := by
  by_cases marked : cache.isInProgress key = true
  · rw [mark_of_isInProgress marked, or_iff_right_of_imp]
    rintro rfl
    exact marked
  · rw [mark, if_neg marked]
    simp [isInProgress]

theorem isInProgress_finish (key other : TargetKey) (cache : Cache) :
    (cache.finish key).isInProgress other = true ↔
      other ≠ key ∧ cache.isInProgress other = true := by
  simp [finish, isInProgress, and_comm]

/-- A document is had already, or is asked for and remembered. -/
theorem load_cases (fetcher : Fetcher) (location : Url) (cache : Cache) :
    (cache.load fetcher location).2 = cache ∨
      Entries.find? location.text cache.documents = none ∧
        (cache.load fetcher location).2 = { cache with
          documents := cache.documents
            ++ [(location.text, fetchDocument fetcher cache.fetches location)]
          fetches := cache.fetches + 1
          asked := cache.asked ++ [location] } := by
  cases known : Entries.find? location.text cache.documents with
  | some outcome =>
    left
    simp [load, known]
  | none =>
    right
    simp [load, known]

end Cache

end SchemaBundle
