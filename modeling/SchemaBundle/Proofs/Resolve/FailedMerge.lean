import SchemaBundle.Proofs.Resolve.Faithful
import SchemaBundle.Proofs.Resolve.Runs

/-!
# A merge that fails leaves no trace

What a walk does with a reference that leaves its scope, `resolveExternal`, gives the local reference,
or nothing after a warning. All that can fail comes before a name is recorded, so a call that gives
nothing has warned once, and has at most asked for a document (`resolveExternal_leavesNoTrace`).

The marks are another matter, since marks are set before anything can fail, and a call that succeeds
may have failed inside. Each mark is cleared by the call that set it and by no other: a walk leaves
the marks as they were (`marks`), and then so does every call.
-/

namespace SchemaBundle

/-! ## Marks -/

namespace Cache

variable {key : TargetKey} {c d : Cache}

/-- A mark that was set is cleared, if nothing else happened to the marks. -/
theorem inProgress_finish (unmarked : c.isInProgress key = false)
    (marks : d.inProgress = (c.mark key).2.inProgress) :
    (d.finish key).inProgress = c.inProgress := by
  have cleared := congrArg inProgress (finish_mark unmarked)
  rw [finish] at cleared ⊢
  rw [marks]
  exact cleared

end Cache

namespace Pass

/-- Clearing the mark of a fragment gives back the marks from before it was marked. -/
theorem inProgress_released {key : TargetKey} {p q : Pass}
    (marks : q.cache.inProgress = (p.marked key).cache.inProgress) :
    (p.released key q).cache.inProgress = p.cache.inProgress := by
  unfold released
  by_cases marked : p.cache.isInProgress key = true
  · rw [if_pos marked, marks, Pass.marked, Cache.mark_of_isInProgress marked]
  · rw [if_neg marked]
    exact Cache.inProgress_finish (Bool.not_eq_true _ ▸ marked) marks

theorem inProgress_checked (layout : Layout) (reference : String) (p : Pass) :
    (p.checked layout reference).cache.inProgress = p.cache.inProgress := by
  unfold checked
  split
  · rfl
  · split <;> rfl

/-- Nothing happened but a warning about a reference, and at most one document was asked for that
was not had before. -/
structure LeavesNoTrace (fetcher : Fetcher) (reference : String) (p q : Pass) : Prop where
  definitions : q.definitions = p.definitions
  merged : q.merged = p.merged
  warnings : ∃ w, q.warnings = p.warnings ++ [w] ∧ w.reference = reference
  names : q.cache.names = p.cache.names
  reserved : q.cache.reserved = p.cache.reserved
  inProgress : q.cache.inProgress = p.cache.inProgress
  cache : q.cache = p.cache ∨
    ∃ location, Entries.find? location.text p.cache.documents = none ∧
      q.cache = { p.cache with
        documents := p.cache.documents
          ++ [(location.text, Cache.fetchDocument fetcher p.cache.fetches location)]
        fetches := p.cache.fetches + 1
        asked := p.cache.asked ++ [location] }

end Pass

namespace Walk

section Marks

variable {setting : Setting} {visit : Visit} {scope : Scope} {p q : Pass}

/-- Following a reference leaves the marks as they were if the visits do. -/
theorem Merging.inProgress {reference : String} {outcome : Except ResolveError String}
    (visits : ∀ scope node (p : Pass),
      (visit scope node p).2.cache.inProgress = p.cache.inProgress)
    (h : Merging setting visit scope reference p outcome q) :
    q.cache.inProgress = p.cache.inProgress := by
  cases h with
  | malformed | wholeRoot | backToRoot | known => rfl
  | unreadable => exact Cache.inProgress_load ..
  | reused => exact Cache.inProgress_load ..
  | @merged t node node' natural name s located outside unnamed read placed visited =>
    have inside := visits (.external t.location) node
      (((p.marked t.key).loaded setting.fetcher t.location).recorded t.key name)
    rw [visited] at inside
    exact Pass.inProgress_released (inside.trans (Cache.inProgress_load ..))

theorem Follows.inProgress {r r' : RefNode}
    (visits : ∀ scope node (p : Pass),
      (visit scope node p).2.cache.inProgress = p.cache.inProgress)
    (h : Follows setting visit scope r p r' q) : q.cache.inProgress = p.cache.inProgress := by
  cases h with
  | kept stays => exact Pass.inProgress_checked ..
  | resolved leaves merging => exact merging.inProgress visits
  | failed leaves merging =>
    have marks := merging.inProgress visits
    exact marks

/-- The law that the marks are as before. -/
def marks (setting : Setting) : WalkLaw setting where
  Inv _ := True
  Step _ p q := q.cache.inProgress = p.cache.inProgress
  Fit _ := True
  Done _ _ _ _ := True
  Cut _ _ := True
  step_nil _ := rfl
  step_append before after := after.trans before
  done_mono _ _ := trivial
  cut_mono _ _ := trivial
  tooDeep _ _ := ⟨trivial, rfl, trivial⟩
  follows visits _ _ h :=
    ⟨trivial, h.inProgress fun _ _ _ => (visits trivial trivial).2.1, trivial⟩

/-- **A walk leaves the marks as they were**, whatever fails in it. -/
theorem inProgress_walkNode (setting : Setting) (room : ℕ) (scope : Scope) (node : Node)
    (p : Pass) : (walkNode setting room scope node p).2.cache.inProgress = p.cache.inProgress :=
  ((marks setting).walkNode room scope node trivial p trivial).2.1

end Marks

/-! ## References that leave their scope -/

section Trace

variable {setting : Setting} {visit : Visit} {scope : Scope} {reference : String} {p q : Pass}

/-- What fails, fails before a name is recorded. -/
theorem Merging.leavesNoTrace {e : ResolveError}
    (h : Merging setting visit scope reference p (.error e) q) :
    Pass.LeavesNoTrace setting.fetcher reference p (q.warn (.unresolved reference e)) := by
  cases h with
  | malformed | wholeRoot => exact ⟨rfl, rfl, ⟨_, rfl, rfl⟩, rfl, rfl, rfl, .inl rfl⟩
  | @unreadable t =>
    refine ⟨rfl, rfl, ⟨_, rfl, rfl⟩, Cache.names_load .., Cache.reserved_load ..,
      Cache.inProgress_load .., ?_⟩
    exact (Cache.load_cases setting.fetcher t.location p.cache).imp_right
      fun asked => ⟨t.location, asked⟩

end Trace

/-- **A failed merge leaves no trace.** A call that gives nothing leaves the registry, the names and
what was merged as they were, has warned once about the reference, and has asked for one document at
most. Every call, whatever failed inside, leaves the marks as they were. The fragment behind a
reference is walked one level deeper than the reference. -/
theorem resolveExternal_leavesNoTrace (setting : Setting) (scope : Scope) (depth : ℕ)
    (reference : String) (p : Pass) :
    let visit := walkNode setting (setting.options.maxDepth - depth)
    let answer := resolveExternal setting visit scope reference p
    answer.2.cache.inProgress = p.cache.inProgress ∧
      (answer.1 = none → p.LeavesNoTrace setting.fetcher reference answer.2) := by
  intro visit answer
  have merging := mergeReference_merging setting visit scope reference p
  have marks := merging.inProgress (inProgress_walkNode setting _)
  have run : answer = _ := resolveExternal_run setting visit scope reference p
  rw [run]
  generalize mergeReference setting visit scope reference p = merged at merging marks ⊢
  obtain ⟨outcome, q⟩ := merged
  cases outcome with
  | ok found => exact ⟨marks, nofun⟩
  | error e => exact ⟨marks, fun _ => merging.leavesNoTrace⟩

/-- While a fragment is marked, neither a document that is missing nor the fragment itself changes
the marks. -/
theorem resolveExternal_leavesNoTrace_marked :
    let setting := Sample.document.setting Sample.fetcher .default
    let call := resolveExternal setting (walkNode setting setting.options.maxDepth) .root
    let key : TargetKey := ⟨"file:///pets.yaml", "/definitions/Pet"⟩
    let p := (Pass.start [] (Cache.empty Sample.root)).marked key
    (call "gone.yaml#/definitions/Pet" p).1 = none ∧
      p.LeavesNoTrace setting.fetcher "gone.yaml#/definitions/Pet"
        (call "gone.yaml#/definitions/Pet" p).2 ∧
      (call "pets.yaml#/definitions/Pet" p).1 = some "#/definitions/Pet" ∧
      (call "pets.yaml#/definitions/Pet" p).2.cache.inProgress = [key] := by
  intro setting call key p
  have failed : (call "gone.yaml#/definitions/Pet" p).1 = none := by
    decide +kernel
  have found : (call "pets.yaml#/definitions/Pet" p).1 = some "#/definitions/Pet" := by
    decide +kernel
  exact ⟨failed, (resolveExternal_leavesNoTrace setting .root 0 _ p).2 failed, found,
    (resolveExternal_leavesNoTrace setting .root 0 _ p).1⟩

end Walk

end SchemaBundle
