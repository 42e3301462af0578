import SchemaBundle.Proofs.Resolve.Walked

/-!
# A pass, position by position

`Document.passAfter` is the pass over a document after its first definitions were resolved. What
stands at the next position is still what the document has there (`Document.passAfter_ready`),
resolving it makes the registry grow (`Document.passAfter_grows`), and what is known or merged by
then stays (`Document.passAfter_later`). So a property of the end of a pass can be traced back to
the position at which it came about.
-/

namespace SchemaBundle

open Walk

/-- A registry stays one: what is merged gets a name of its own. -/
theorem Merges.distinct_definitions {setting : Setting} {copies : List Copy} {p q : Pass}
    (h : Merges setting copies p q) (distinct : p.definitions.Distinct) :
    q.definitions.Distinct := by
  rw [Entries.Distinct, h.keys]
  refine List.Nodup.append distinct h.distinctNames fun name before merged => ?_
  obtain ⟨copy, member, rfl⟩ := List.mem_map.1 merged
  exact (h.unused copy member).1 before

namespace Document

variable {fetcher : Fetcher} {options : Options} {document : Document} {root : Url} {n m : Nat}

theorem passAfter_succ (fetcher : Fetcher) (options : Options) (document : Document) (root : Url)
    (n : Nat) :
    document.passAfter fetcher options root (n + 1)
      = (resolveAt (document.setting fetcher options) n
          (document.passAfter fetcher options root n)).2 := by
  rw [passAfter, List.range_succ, forM_concat_run]
  rfl

/-- Before a position is resolved, what stands there is what the document has. -/
theorem passAfter_ready (h : root.IsLocation) (bound : n ≤ document.definitions.length) :
    (document.passAfter fetcher options root n).cache.Sound document.layout fetcher ∧
      ∀ {entry}, document.definitions[n]? = some entry →
        (document.passAfter fetcher options root n).definitions[n]? = some entry := by
  obtain ⟨sound, copies, done, -, -, definitions, related⟩ :=
    @resolveRange_grows (document.setting fetcher options)
      (Pass.start document.definitions (Cache.empty root))
      (Cache.sound_empty h.wellFormed document.layout fetcher) n bound
  refine ⟨sound, fun {entry} here => ?_⟩
  have length : done.length = n := by
    rw [← related.length_eq, List.length_take]
    exact Nat.min_eq_left bound
  rw [passAfter, definitions, List.append_assoc, List.getElem?_append_right (by omega), length,
    Nat.sub_self, List.getElem?_append_left, List.getElem?_drop]
  · exact here
  · rw [List.length_drop]
    have := (List.getElem?_eq_some_iff.1 here).1
    exact Nat.sub_pos_of_lt this

theorem passAfter_distinct (h : root.IsLocation) (distinct : document.definitions.Distinct)
    (bound : n ≤ document.definitions.length) :
    (document.passAfter fetcher options root n).definitions.Distinct := by
  obtain ⟨-, copies, done, merges, -⟩ :=
    @resolveRange_grows (document.setting fetcher options)
      (Pass.start document.definitions (Cache.empty root))
      (Cache.sound_empty h.wellFormed document.layout fetcher) n bound
  exact merges.distinct_definitions distinct

/-- What resolving one position does. -/
theorem passAfter_grows (h : root.IsLocation) {name : String} {node : Node}
    (here : document.definitions[n]? = some (name, node)) :
    let p := document.passAfter fetcher options root n
    let q := document.passAfter fetcher options root (n + 1)
    ∃ copies node', Merges (document.setting fetcher options) copies p q ∧
      q.definitions[n]? = some (name, node') ∧
      ∀ {key other}, q.cache.localName? key = some other →
        p.cache.localName? key = some other ∨ (∃ copy ∈ copies, copy.target.key = key) ∨
          ∃ fragment present,
            Reused document.layout key other fragment present (q.put n (name, .plain .null)) := by
  have bound := (List.getElem?_eq_some_iff.1 here).1
  obtain ⟨sound, ready⟩ := @passAfter_ready fetcher options document root n h (Nat.le_of_lt bound)
  obtain ⟨-, copies, node', merges, -, definitions, -, reuses⟩ :=
    @resolveAt_grows (document.setting fetcher options) _ _ _ _ (ready here) sound
  rw [← passAfter_succ] at merges definitions reuses
  refine ⟨copies, node', merges, ?_, reuses⟩
  have inside := (List.getElem?_eq_some_iff.1 (ready here)).1
  rw [definitions, List.getElem?_append_left (by simpa using inside),
    List.getElem?_set_self inside]

/-- Nothing that was known or merged is lost at later positions. -/
theorem passAfter_later (h : root.IsLocation) (le : n ≤ m)
    (bound : m ≤ document.definitions.length) :
    (document.passAfter fetcher options root n).cache.Le
        (document.passAfter fetcher options root m).cache ∧
      (document.passAfter fetcher options root n).merged
        <+: (document.passAfter fetcher options root m).merged := by
  induction m, le using Nat.le_induction with
  | base => exact ⟨.refl _, List.prefix_rfl⟩
  | succ m le ih =>
    obtain ⟨cache, merged⟩ := ih (by omega)
    obtain ⟨⟨name, node⟩, here⟩ : ∃ entry, document.definitions[m]? = some entry :=
      ⟨_, List.getElem?_eq_getElem (by omega)⟩
    obtain ⟨copies, -, merges, -⟩ :=
      @passAfter_grows fetcher options document root m h name node here
    exact ⟨cache.trans merges.toBefore.cache, merged.trans ⟨_, merges.merged.symm⟩⟩

end Document

end SchemaBundle
