import SchemaBundle.Proofs.Resolve.Capture
import SchemaBundle.Proofs.Resolve.Positions
import SchemaBundle.Proofs.Schema.SelfContained

/-!
# When a definition that was reused is the right one

A fragment without references may get the name of a definition that is identical to it, instead of
being copied. The two are compared in the middle of a pass, when some definitions are not resolved
yet and `null` stands in the place of the one that is being walked.

A definition that is identical to a fragment without references has no references either, so walking
it later changes nothing (`resolveAt_keeps`), and what was reused is what the bundle has in the end.
There is one exception: a fragment that is `null` is identical to what stands in the place of the
definition being walked. `resolve_reuses_iff` says that this is the only one.
-/

namespace SchemaBundle

open Walk

/-! ## Definitions without references -/

section Registry

variable {setting : Setting} {copies : List Copy} {p q : Pass}

theorem Redefined.eq_self {name : String} {node node' : Node}
    (h : Redefined setting q (name, node) (name, node')) (free : node.AllRefs fun _ => False) :
    node' = node :=
  h.2.eq_self fun place r found => (free place r found).elim

/-- A definition without references keeps its place and its value when another one, or it itself, is
resolved. -/
theorem resolveAt_keeps (sound : p.cache.Sound setting.layout setting.fetcher)
    (distinct : p.definitions.Distinct) (position : Nat) {name : String} {present : Node}
    (found : Entries.find? name p.definitions = some present)
    (free : present.AllRefs fun _ => False) :
    Entries.find? name (resolveAt setting position p).2.definitions = some present := by
  cases here : p.definitions[position]? with
  | none =>
    rw [resolveAt, run_bind, run_get]
    simp only [here]
    exact found
  | some entry =>
    obtain ⟨other, node⟩ := entry
    obtain ⟨-, copies, node', -, -, definitions, redefined, -⟩ := resolveAt_grows here sound
    rw [definitions]
    refine Entries.find?_append_of_some ?_ _
    by_cases same : name = other
    · subst same
      rw [Entries.find?_of_getElem? distinct here, Option.some.injEq] at found
      subst found
      rw [redefined.eq_self free]
      exact Entries.find?_set_self distinct here node
    · rw [Entries.find?_set_of_ne here same]
      exact found

end Registry

/-! ## Position by position -/

namespace Document

variable {fetcher : Fetcher} {options : Options} {document : Document} {root : Url} {n m : Nat}

/-- Definitions without references stay through later positions. -/
theorem passAfter_keeps (h : root.IsLocation) (distinct : document.definitions.Distinct)
    (le : n ≤ m) (bound : m ≤ document.definitions.length) {name : String} {present : Node}
    (found : Entries.find? name (document.passAfter fetcher options root n).definitions
      = some present) (free : present.AllRefs fun _ => False) :
    Entries.find? name (document.passAfter fetcher options root m).definitions = some present := by
  induction m, le using Nat.le_induction with
  | base => exact found
  | succ m le ih =>
    have inside : m ≤ document.definitions.length := by omega
    obtain ⟨sound, -⟩ := @passAfter_ready fetcher options document root m h inside
    rw [passAfter_succ]
    exact resolveAt_keeps sound (passAfter_distinct h distinct inside) m (ih inside) free

/-- A fragment got its name while the definition at a position was walked. -/
def NamedDuring (fetcher : Fetcher) (options : Options) (document : Document) (root : Url)
    (key : TargetKey) (position : Nat) : Prop :=
  (document.passAfter fetcher options root position).cache.localName? key = none ∧
    (document.passAfter fetcher options root (position + 1)).cache.localName? key ≠ none

/-- What has a name got it at some position. -/
theorem exists_namedDuring {key : TargetKey}
    (named : (document.passAfter fetcher options root n).cache.localName? key ≠ none) :
    ∃ i < n, document.NamedDuring fetcher options root key i := by
  induction n with
  | zero => exact (named rfl).elim
  | succ n ih =>
    by_cases before : (document.passAfter fetcher options root n).cache.localName? key = none
    · exact ⟨n, Nat.lt_succ_self n, before, named⟩
    · obtain ⟨i, lt, during⟩ := ih before
      exact ⟨i, by omega, during⟩

/-- It did so at one position only. -/
theorem NamedDuring.unique (h : root.IsLocation) {key : TargetKey} {i j : Nat}
    (first : document.NamedDuring fetcher options root key i)
    (second : document.NamedDuring fetcher options root key j)
    (boundI : i < document.definitions.length) (boundJ : j < document.definitions.length) :
    i = j := by
  have separate {i j : Nat} (lt : i < j) (bound : j < document.definitions.length)
      (first : document.NamedDuring fetcher options root key i)
      (second : document.NamedDuring fetcher options root key j) : False := by
    have later := (@passAfter_later fetcher options document root (i + 1) j h lt (by omega)).1
    exact first.2 (later.unnamed second.1)
  rcases Nat.lt_trichotomy i j with lt | same | lt
  · exact (separate lt boundJ first second).elim
  · exact same
  · exact (separate lt boundI second first).elim

/-- A fragment got the name of a definition while that definition was walked. -/
def NamesCurrent (fetcher : Fetcher) (options : Options) (document : Document) (root : Url)
    (key : TargetKey) (name : String) : Prop :=
  ∃ i node, document.definitions[i]? = some (name, node) ∧
    document.NamedDuring fetcher options root key i

end Document

/-! ## Plain values -/

theorem Node.eq_plain_null_of_eqv {node : Node} (h : (Node.plain .null).eqv node = true) :
    node = .plain .null := by
  cases node with
  | plain value =>
    cases value with
    | null => rfl
    | _ => simp [Node.eqv, Json.eqv] at h
  | _ => simp [Node.eqv] at h

theorem Node.eq_plain_of_eqv {node : Node} (h : node.eqv (.plain .null) = true) :
    ∃ value, node = .plain value := by
  cases node with
  | plain value => exact ⟨value, rfl⟩
  | _ => simp [Node.eqv] at h

theorem Node.eq_null_of_ofJson {layout : Layout} {value : Json}
    (h : Node.ofJson layout value = .plain .null) : value = .null := by
  cases value with
  | null => rfl
  | obj members =>
    simp only [Node.ofJson, Node.ofParts, Node.ofMembers] at h
    split at h
    · cases h
    · split at h <;> cases h
    · split at h <;> cases h
  | _ => simp [Node.ofJson] at h

/-- A schema that was walked is a plain value only if it was one. -/
theorem Node.RelWithin.eq_plain {R : RefNode → RefNode → Prop} {cut : Prop} {room : Nat}
    {node : Node} {value : Json} (h : Node.RelWithin R cut room node (.plain value)) :
    node = .plain value := by
  cases room with
  | zero => exact h.1.symm
  | succ room =>
    cases node with
    | ref => obtain ⟨_, h, -⟩ := h; cases h
    | array => obtain ⟨_, h, -⟩ := h; cases h
    | composed => obtain ⟨_, _, _, _, h, -⟩ := h; cases h
    | object => obtain ⟨_, _, _, _, _, h, -⟩ := h; cases h
    | plain => exact h.symm

/-- Nothing gets a name while a plain value is walked. -/
theorem Document.NamedDuring.not_plain {fetcher : Fetcher} {options : Options}
    {document : Document} {root : Url} {key : TargetKey} {i : Nat} {name : String} {node : Node}
    (h : document.NamedDuring fetcher options root key i) (located : root.IsLocation)
    (here : document.definitions[i]? = some (name, node)) (value : Json) : node ≠ .plain value := by
  rintro rfl
  have bound := (List.getElem?_eq_some_iff.1 here).1
  obtain ⟨-, ready⟩ := @passAfter_ready fetcher options document root i located
    (Nat.le_of_lt bound)
  have later := h.2
  rw [passAfter_succ, resolveAt_run (ready here)] at later
  exact later h.1

/-! ## The bundle -/

/-- What a definition of the document was made into has its name in the bundle. -/
theorem Document.find?_lastPass {fetcher : Fetcher} {options : Options} {document : Document}
    {root : Url} {i : Nat} {name : String} {node : Node} (located : root.IsLocation)
    (distinct : document.definitions.Distinct)
    (here : document.definitions[i]? = some (name, node)) :
    ∃ node', Entries.find? name (document.lastPass fetcher options root).definitions = some node' ∧
      Redefined (document.setting fetcher options) (document.lastPass fetcher options root)
        (name, node) (name, node') := by
  obtain ⟨copies, done, bundled⟩ := document.lastPass_bundled fetcher options located
  obtain ⟨⟨name', node'⟩, there, redefined⟩ :=
    optionRel_left (optionRel_get bundled.related i) here
  obtain rfl : name' = name := redefined.1
  have distinct' := bundled.merges.distinct_definitions distinct
  refine ⟨node', Entries.find?_of_getElem? distinct' (i := i) ?_, redefined⟩
  rw [bundled.definitions, List.getElem?_append_left (List.getElem?_eq_some_iff.1 there).1, there]

/-- A fragment has the name of a definition, and is not one of those that were copied. -/
structure Resolved.Reuses (result : Resolved) (key : TargetKey) (name : String) : Prop where
  named : result.cache.localName? key = some name
  notCopied : ⟨key.text, name⟩ ∉ result.report.merged

/-- What was not copied was reused while some definition was walked, and then `null` stood in the
place of that one. -/
theorem Document.exists_reused {fetcher : Fetcher} {options : Options} {document : Document}
    {root : Url} {key : TargetKey} {name : String} (isLocation : root.IsLocation)
    (named : (document.lastPass fetcher options root).cache.localName? key = some name)
    (notCopied : ⟨key.text, name⟩ ∉ (document.lastPass fetcher options root).merged) :
    ∃ i other node node' fragment present, document.definitions[i]? = some (other, node) ∧
      document.NamedDuring fetcher options root key i ∧
      (document.passAfter fetcher options root (i + 1)).definitions[i]? = some (other, node') ∧
      Reused document.layout key name fragment present
        ((document.passAfter fetcher options root (i + 1)).put i (other, .plain .null)) := by
  obtain ⟨i, bound, during⟩ : ∃ i < document.definitions.length,
      document.NamedDuring fetcher options root key i :=
    exists_namedDuring (by rw [← lastPass, named]; simp)
  obtain ⟨⟨other, node⟩, here⟩ : ∃ entry, document.definitions[i]? = some entry :=
    ⟨_, List.getElem?_eq_getElem bound⟩
  obtain ⟨later, kept⟩ := @passAfter_later fetcher options document root _ _ isLocation
    (Nat.succ_le_of_lt bound) (Nat.le_refl _)
  obtain ⟨copies, node', merges, there, reuses⟩ :=
    @passAfter_grows fetcher options document root i isLocation other node here
  obtain ⟨got, isGot⟩ := Option.ne_none_iff_exists'.1 during.2
  obtain rfl : got = name := Option.some.inj ((later.names isGot).symm.trans named)
  rcases reuses isGot with before | ⟨copy, member, same⟩ | ⟨fragment, present, reused⟩
  · exact absurd before (by simp [during.1])
  · -- a copy would be in the report
    refine absurd (kept.subset ?_) notCopied
    have isName := merges.named copy member
    rw [same, isGot, Option.some.injEq] at isName
    rw [merges.merged, List.mem_append, List.mem_map]
    exact .inr ⟨copy, member, by rw [Copy.merged, same, isName]⟩
  · exact ⟨i, other, node, node', fragment, present, here, during, there, reused⟩

/-- **Reuse is sound, except of `null`.** A fragment that was not copied is equal to what its name
stands for in the bundle, unless it got that name while the definition of that name was walked. Then
the fragment is `null`, and the bundle has something else under the name. -/
theorem resolve_reuses_iff {fetcher : Fetcher} {options : Options} {document : Document}
    {root : Url} {result : Resolved} {t : Target} {name : String}
    (distinct : document.definitions.Distinct) (known : options.rootUrl = .ok root)
    (resolved : document.resolve fetcher options = .ok result) (located : t.IsLocated)
    (reused : result.Reuses t.key name) :
    ∃ value part, Entries.find? t.location.text result.cache.documents = some (.ok value) ∧
      t.select value = .ok part ∧
      ((∃ present, Entries.find? name result.document.definitions = some present ∧
          present.eqv (Node.ofJson document.layout part) = true) ↔
        ¬ document.NamesCurrent fetcher options root t.key name) ∧
      (document.NamesCurrent fetcher options root t.key name → part = .null) := by
  have isLocation := Options.isLocation_of_rootUrl known
  rw [Document.resolve_of_rootUrl fetcher options document known, Except.ok.injEq] at resolved
  subst resolved
  obtain ⟨i, other, node, node', fragment, present, here, during, there, reused⟩ :=
    Document.exists_reused isLocation reused.named reused.notCopied
  have bound := (List.getElem?_eq_some_iff.1 here).1
  have later := (@Document.passAfter_later fetcher options document root _ _ isLocation
    (Nat.succ_le_of_lt bound) (Nat.le_refl _)).1
  have distinct' := @Document.passAfter_distinct fetcher options document root _ isLocation distinct
    (Nat.succ_le_of_lt bound)
  obtain ⟨u, outcome, natural, hu, same, found, read⟩ := reused.holds
  obtain rfl := Target.eq_of_key hu located same
  obtain ⟨value, part, rfl, selected, -, rfl⟩ := Target.eq_ofJson_of_fragmentOf read
  refine ⟨value, part, later.documents found, selected, ?_⟩
  have stands := reused.found
  have equal := reused.same
  by_cases current : name = other
  · subst current
    have own : document.NamesCurrent fetcher options root u.key name := ⟨i, node, here, during⟩
    rw [Pass.put, Entries.find?_set_self distinct' there, Option.some.injEq] at stands
    obtain rfl := stands
    have isNull := Node.eq_plain_null_of_eqv equal
    refine ⟨⟨?_, fun notOwn => absurd own notOwn⟩, fun _ => Node.eq_null_of_ofJson isNull⟩
    rintro ⟨walked, atEnd, same⟩
    obtain ⟨walked', found, redefined⟩ :=
      @Document.find?_lastPass fetcher options document root i name node isLocation distinct here
    obtain rfl := Option.some.inj (atEnd.symm.trans found)
    rw [isNull] at same
    obtain ⟨value', rfl⟩ := Node.eq_plain_of_eqv same
    exact (during.not_plain isLocation here value' redefined.2.eq_plain).elim
  · -- it stood under a name of its own, and nothing changes it later
    rw [Pass.put, Entries.find?_set_of_ne there current] at stands
    have free := Node.allRefs_of_eqv equal reused.selfContained
    have atEnd := @Document.passAfter_keeps fetcher options document root _ _ isLocation distinct
      (Nat.succ_le_of_lt bound) (Nat.le_refl _) _ _ stands free
    have notOwn : ¬ document.NamesCurrent fetcher options root u.key name := by
      rintro ⟨j, node'', here', during'⟩
      have boundJ := (List.getElem?_eq_some_iff.1 here').1
      obtain rfl := during.unique isLocation during' bound boundJ
      rw [here, Option.some.injEq, Prod.mk.injEq] at here'
      exact current here'.1.symm
    exact ⟨⟨fun _ => notOwn, fun _ => ⟨present, atEnd, equal⟩⟩, fun own => absurd own notOwn⟩

/-! ## Two documents with a `null` -/

namespace Sample

/-- A document with a definition of its own and one that stands in another document. -/
def twins : Document :=
  ⟨.swagger2, [("Start", .ref ⟨"other.yaml#/definitions/Tag", .relativeFile, []⟩),
    ("Tag", .plain (.bool true))], [("definitions", .null)]⟩

/-- A document with one definition, which stands in another document under the same name. -/
def aliased : Document :=
  ⟨.swagger2, [("Pet", .ref ⟨"other.yaml#/definitions/Pet", .relativeFile, []⟩)],
    [("definitions", .null)]⟩

/-- The other document. -/
def twinned : Fetcher :=
  .inMemory [("file:///other.yaml", ("definitions:\n  Pet: null\n  Tag: true\n").toUTF8.toList)]

end Sample

/-- `Tag` is reused, and the bundle has it. -/
theorem resolve_reuses_iff_tag :
    Sample.twins.definitions.Distinct ∧ Options.default.rootUrl = .ok Sample.root ∧
    ∃ result, Sample.twins.resolve Sample.twinned .default = .ok result ∧
      result.Reuses ⟨"file:///other.yaml", "/definitions/Tag"⟩ "Tag" ∧
      ∃ value part, Entries.find? "file:///other.yaml" result.cache.documents = some (.ok value) ∧
        Target.select ⟨Sample.other, some "/definitions/Tag"⟩ value = .ok part ∧
        ((∃ present, Entries.find? "Tag" result.document.definitions = some present ∧
            present.eqv (Node.ofJson .swagger2 part) = true) ↔
          ¬ Sample.twins.NamesCurrent Sample.twinned .default Sample.root
            ⟨"file:///other.yaml", "/definitions/Tag"⟩ "Tag") := by
  have distinct : Sample.twins.definitions.Distinct := by
    unfold Entries.Distinct
    decide
  have known : Options.default.rootUrl = .ok Sample.root := rfl
  have run : (Sample.twins.resolve Sample.twinned .default).toOption.map (fun result =>
      (result.cache.localName? ⟨"file:///other.yaml", "/definitions/Tag"⟩, result.report.merged))
      = some (some "Tag", []) := by
    decide +kernel
  obtain ⟨result, resolved, facts⟩ := Option.map_eq_some_iff.1 run
  rw [Prod.mk.injEq] at facts
  have resolved := eq_ok_of_toOption resolved
  have reuses : result.Reuses ⟨"file:///other.yaml", "/definitions/Tag"⟩ "Tag" :=
    ⟨facts.1, by rw [facts.2]; exact List.not_mem_nil⟩
  have located : Target.IsLocated ⟨Sample.other, some "/definitions/Tag"⟩ :=
    Sample.isLocated_other (rfl : Target.locate "other.yaml#/definitions/Tag" _ = _)
  obtain ⟨value, part, found, selected, sound, -⟩ :=
    resolve_reuses_iff distinct known resolved located reuses
  exact ⟨distinct, known, result, resolved, reuses, value, part, found, selected, sound⟩

/-- Whatever was not copied is equal to what its name stands for in the bundle. -/
def Resolved.ReuseSound (layout : Layout) (result : Resolved) : Prop :=
  ∀ {t : Target} {name : String} {value part : Json}, t.IsLocated → result.Reuses t.key name →
    Entries.find? t.location.text result.cache.documents = some (.ok value) →
    t.select value = .ok part →
    ∃ present, Entries.find? name result.document.definitions = some present ∧
      present.eqv (Node.ofJson layout part) = true

/-- Whether what a target selects is equal to what a name stands for in the bundle. -/
def Resolved.isEqual? (layout : Layout) (t : Target) (name : String) (result : Resolved) :
    Option Bool :=
  (Entries.find? t.location.text result.cache.documents).bind fun outcome =>
    outcome.toOption.bind fun value =>
      (t.select value).toOption.bind fun part =>
        (Entries.find? name result.document.definitions).map
          (·.eqv (Node.ofJson layout part))

/-- One fragment that is not is enough. -/
theorem not_reuseSound {layout : Layout} {result : Resolved} {t : Target} {name : String}
    (located : t.IsLocated) (reuses : result.Reuses t.key name)
    (different : result.isEqual? layout t name = some false) : ¬ result.ReuseSound layout := by
  intro sound
  simp only [Resolved.isEqual?, Option.bind_eq_some_iff, Option.map_eq_some_iff] at different
  obtain ⟨outcome, found, value, read, part, selected, present, atEnd, different⟩ := different
  obtain ⟨present', atEnd', equal⟩ := sound located reuses
    (found.trans (congrArg some (eq_ok_of_toOption read))) (eq_ok_of_toOption selected)
  rw [atEnd, Option.some.injEq] at atEnd'
  rw [← atEnd', different] at equal
  cases equal

/-- `Pet` is walked while `null` stands in its place, and the `Pet` of the other document is `null`.
So it is not copied, and the bundle has a `Pet` that refers to itself. -/
theorem resolve_reuses_null :
    ∃ result, Sample.aliased.resolve Sample.twinned .default = .ok result ∧
      result.textAt? "Pet" [] = some "#/definitions/Pet" ∧ ¬ result.ReuseSound .swagger2 := by
  have run : (Sample.aliased.resolve Sample.twinned .default).toOption.map (fun result =>
      (result.cache.localName? ⟨"file:///other.yaml", "/definitions/Pet"⟩, result.report.merged,
        result.textAt? "Pet" [],
        result.isEqual? .swagger2 ⟨Sample.other, some "/definitions/Pet"⟩ "Pet"))
      = some (some "Pet", [], some "#/definitions/Pet", some false) := by
    decide +kernel
  obtain ⟨result, resolved, facts⟩ := Option.map_eq_some_iff.1 run
  simp only [Prod.mk.injEq] at facts
  obtain ⟨named, merged, shown, different⟩ := facts
  have located : Target.IsLocated ⟨Sample.other, some "/definitions/Pet"⟩ :=
    Sample.isLocated_other (rfl : Target.locate "other.yaml#/definitions/Pet" _ = _)
  have reuses : result.Reuses (Target.key ⟨Sample.other, some "/definitions/Pet"⟩) "Pet" :=
    ⟨named, by rw [merged]; exact List.not_mem_nil⟩
  exact ⟨result, eq_ok_of_toOption resolved, shown, not_reuseSound located reuses different⟩

end SchemaBundle
