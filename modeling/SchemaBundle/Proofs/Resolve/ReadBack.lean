import SchemaBundle.Proofs.Json.Loaded
import SchemaBundle.Proofs.Document.RoundTrip
import SchemaBundle.Proofs.Resolve.Complete
import SchemaBundle.Proofs.Schema.Rereading

/-!
# What is read of a bundle

A pass sets the kind of a reference together with its text, and a reader classifies the text alone.
The two agree on what was left alone and on local references. They do not agree on a pointer into
the root document that has the mark of a URL in it, nor on the absolute form of a target whose URL
lacks the mark (`RefNode.IsMismade`). A definition of the bundle is read back as it is exactly if no
reference of it is one of these (`resolve_readsBack`). They occur (`resolve_misread`): the absolute
form of an opaque URL is even taken for the bare name of a definition.
-/

namespace SchemaBundle

/-! ## The mark of a URL -/

namespace Reference

/-- Whether a text has the mark by which a URL is known. -/
def hasMark (text : String) : Bool :=
  Text.hasPart [':', '/', '/'] text.toList

theorem classify_eq_url_iff {text : String} : classify text = .url ↔ hasMark text = true := by
  unfold classify hasMark
  dsimp only
  split
  · rename_i marked
    simp [marked]
  · rename_i unmarked
    rw [Bool.not_eq_true] at unmarked
    rw [unmarked]
    split
    · simp
    · split <;> simp

theorem classify_of_hash {text : String} (hash : text.toList.head? = some '#')
    (unmarked : hasMark text = false) : classify text = .internal := by
  unfold hasMark at unmarked
  simp [classify, unmarked, hash]

theorem hasMark_hash (pointer : String) : hasMark ("#" ++ pointer) = hasMark pointer := by
  simp [hasMark, Text.hasPart, Text.afterStart?]

theorem hasPart_append_left {part : List Char} (before text : List Char)
    (h : Text.hasPart part text = true) : Text.hasPart part (before ++ text) = true := by
  induction before with
  | nil => exact h
  | cons c rest ih => rw [List.cons_append, Text.hasPart, ih, Bool.or_true]

theorem hasMark_of_mem {before after : List Char} :
    hasMark (String.ofList (before ++ [':', '/', '/'] ++ after)) = true := by
  rw [hasMark, String.toList_ofList, List.append_assoc]
  exact hasPart_append_left before _ (by simp [Text.hasPart, Text.afterStart?])

end Reference

/-- The text of a URL with a host has the mark. -/
theorem Url.hasMark_text {u : Url} {a : Authority} (h : u.authority = some a) (rest : String) :
    Reference.hasMark (u.text ++ rest) = true := by
  have chars : ∃ after, (u.text ++ rest).toList = u.scheme.toList ++ [':', '/', '/'] ++ after := by
    rw [text, h]
    simp only [String.toList_append, List.append_assoc]
    exact ⟨_, rfl⟩
  obtain ⟨after, chars⟩ := chars
  rw [← String.ofList_toList (s := u.text ++ rest), chars]
  exact Reference.hasMark_of_mem

theorem Target.authority_of_unmarked {t : Target}
    (unmarked : Reference.hasMark t.absoluteReference = false) : t.location.authority = none := by
  cases host : t.location.authority with
  | none => rfl
  | some a =>
    have marked : Reference.hasMark t.absoluteReference = true := by
      unfold absoluteReference
      split
      · rename_i fragment _
        rw [String.append_assoc]
        exact Url.hasMark_text host ("#" ++ fragment)
      · simpa using Url.hasMark_text host ""
    rw [unmarked] at marked
    cases marked

/-! ## References that are read back -/

namespace RefNode

variable {layout : Layout} {r r' : RefNode}

theorem isReadBack_iff : r.IsReadBack layout ↔
    Reference.normalize r.reference layout = (r.reference, r.format) := by
  obtain ⟨text, format, extra⟩ := r
  rw [IsReadBack, reread, ofText, RefNode.mk.injEq, Prod.ext_iff]
  simp

/-- A reference that is read back has the kind of its text. -/
theorem IsReadBack.format_eq (h : r.IsReadBack layout) :
    r.format = Reference.classify r.reference := by
  have kind := congrArg Prod.snd (isReadBack_iff.1 h)
  rw [← show (r.reference, r.format).2 = r.format from rfl, ← kind, Reference.normalize]
  split <;> rfl

theorem isReadBack_hash (internal : r.format = .internal)
    (hash : r.reference.toList.head? = some '#') :
    r.IsReadBack layout ↔ Reference.hasMark r.reference = false := by
  constructor
  · intro h
    rw [← Bool.not_eq_true, ← Reference.classify_eq_url_iff, ← h.format_eq, internal]
    decide
  · intro unmarked
    rw [isReadBack_iff, Reference.normalize, Reference.classify_of_hash hash unmarked, internal]
    simp [hash]

theorem isReadBack_url (url : r.format = .url) :
    r.IsReadBack layout ↔ Reference.hasMark r.reference = true := by
  rw [← Reference.classify_eq_url_iff]
  constructor
  · intro h
    rw [← h.format_eq, url]
  · intro marked
    rw [isReadBack_iff, Reference.normalize, marked, url]
    simp

theorem isReadBack_localRef (r : RefNode) (name : String) :
    (r.localized (layout.localRef name)).IsReadBack layout := by
  rw [isReadBack_iff, localized]
  exact Reference.normalize_localRef layout layout name

/-! ## What becomes of a reference -/

/-- What can become of a reference that is written in a scope. -/
inductive Becomes (layout : Layout) (root : Url) (scope : Scope) (r : RefNode) : RefNode → Prop
  | itself : Becomes layout root scope r r
  | pointer {pointer : String}
    (located : Target.locate r.reference (scope.base root) = .ok ⟨root, some pointer⟩) :
    Becomes layout root scope r (r.localized ("#" ++ pointer))
  | localRef (name : String) : Becomes layout root scope r (r.localized (layout.localRef name))
  | absolute {location : Url} {t : Target} (outside : scope = .external location)
    (located : Target.locate r.reference location = .ok t) :
    Becomes layout root scope r { r with reference := t.absoluteReference, format := .url }

theorem becomes_unresolved (layout : Layout) (root : Url) (scope : Scope) (r : RefNode) :
    r.Becomes layout root scope (r.unresolved scope) := by
  cases scope with
  | root => exact .itself
  | external location =>
    cases located : Target.locate r.reference location with
    | error e =>
      rw [unresolved, Walk.pinned, located]
      exact .itself
    | ok t =>
      rw [unresolved, Walk.pinned, located]
      exact .absolute rfl located

theorem becomes_rewrite (layout : Layout) (cache : Cache) (scope : Scope) (r : RefNode) :
    r.Becomes layout cache.root scope (r.rewrite layout cache scope) := by
  unfold rewrite
  split
  · split
    · exact .itself
    · rename_i t located
      split
      · rename_i inRoot
        split
        · rename_i pointer inside
          refine .pointer (located.trans ?_)
          rw [← inRoot, ← inside]
        · exact r.becomes_unresolved layout _ scope
      · split
        · exact .localRef _
        · exact r.becomes_unresolved layout _ scope
  · exact .itself

theorem Becomes.unaimed_eq {root : Url} {scope : Scope} (h : r.Becomes layout root scope r') :
    r'.unaimed = r.unaimed := by
  cases h <;> rfl

/-- What the pass has made of a reference is not what a reader makes of it. -/
inductive IsMismade (root : Url) (scope : Scope) (r r' : RefNode) : Prop
  /-- A pointer into the root document that has the mark of a URL in it. -/
  | pointer {pointer : String}
    (located : Target.locate r.reference (scope.base root) = .ok ⟨root, some pointer⟩)
    (becomes : r' = r.localized ("#" ++ pointer)) (marked : Reference.hasMark pointer = true)
  /-- The absolute form of a target whose URL has no host, and so need not have the mark. -/
  | absolute {location : Url} {t : Target} (outside : scope = .external location)
    (located : Target.locate r.reference location = .ok t)
    (becomes : r' = { r with reference := t.absoluteReference, format := .url })
    (hostless : t.location.authority = none)
    (unmarked : Reference.hasMark t.absoluteReference = false)

section Mismade

variable {root : Url} {scope : Scope}

theorem IsMismade.not_isReadBack (h : r.IsMismade root scope r') : ¬ r'.IsReadBack layout := by
  cases h with
  | pointer located becomes marked =>
    rw [becomes, isReadBack_hash rfl (by simp [localized]), localized]
    dsimp only
    rw [Reference.hasMark_hash, marked]
    exact fun h => Bool.noConfusion h
  | absolute outside located becomes hostless unmarked =>
    rw [becomes, isReadBack_url rfl, unmarked]
    exact Bool.false_ne_true

/-- What is not mismade is read back. -/
theorem Becomes.isReadBack (h : r.Becomes layout root scope r') (before : r.IsReadBack layout)
    (sound : ¬ r.IsMismade root scope r') : r'.IsReadBack layout := by
  cases h with
  | itself => exact before
  | localRef name => exact r.isReadBack_localRef name
  | @pointer pointer located =>
    rw [isReadBack_hash rfl (by simp [localized]), localized]
    dsimp only
    rw [Reference.hasMark_hash, ← Bool.not_eq_true]
    exact fun marked => sound (.pointer located rfl marked)
  | @absolute location t outside located =>
    rw [isReadBack_url rfl, ← Bool.not_eq_false]
    exact fun unmarked =>
      sound (.absolute outside located rfl (Target.authority_of_unmarked unmarked) unmarked)

end Mismade

end RefNode

/-! ## Definitions of a bundle -/

/-- The definitions of a document that was read are read of the members of its registry. -/
theorem Document.exists_schema_of_mem {root : Members} {document : Document}
    (read : Document.ofJson (.obj root) = .ok document) {entry : String × Node}
    (member : entry ∈ document.definitions) :
    ∃ schemas part, registryValue document.layout root = some (.obj schemas) ∧
      (entry.1, part) ∈ schemas ∧ entry.2 = Node.ofJson document.layout part := by
  obtain rfl := Except.ok.inj read
  dsimp only at member ⊢
  unfold definitionsOf at member
  split at member
  · rename_i schemas present
    obtain ⟨⟨name, schema⟩, isSchema, rfl⟩ := List.mem_map.1 member
    exact ⟨schemas, schema, present, isSchema, rfl⟩
  · cases member

theorem Document.exists_value_of_mem {value : Json} (wellFormed : value.WellFormed)
    {document : Document} (read : Document.ofJson value = .ok document) {entry : String × Node}
    (member : entry ∈ document.definitions) :
    ∃ part : Json, part.WellFormed ∧ entry.2 = Node.ofJson document.layout part := by
  cases value with
  | obj root =>
    obtain ⟨schemas, part, present, isSchema, same⟩ := exists_schema_of_mem read member
    have registry := wellFormed_of_registryValue wellFormed present
    exact ⟨part, (Json.wellFormed_obj_iff.1 registry).2 _ isSchema, same⟩
  | _ => cases read

/-- A copy is read of a value that was loaded. -/
theorem Copy.IsRead.exists_value {layout : Layout} {fetcher : Fetcher} {copy : Copy}
    (h : copy.IsRead layout fetcher) :
    ∃ part : Json, part.Loadable ∧ copy.source = Node.ofJson layout part := by
  obtain ⟨turn, value, part, fetched, selected, source⟩ := h.read
  exact ⟨part, Target.loadable_of_select fetched selected, source⟩

/-- What a reference became that was followed. -/
theorem Followed.becomes {setting : Setting} {scope : Scope} {q : Pass} {r r' : RefNode}
    (sound : q.cache.Sound setting.layout setting.fetcher) (h : Followed setting scope r r' q) :
    r.Becomes setting.layout q.cache.root scope r' := by
  rw [h.knows q.cache sound (.refl _)]
  exact r.becomes_rewrite setting.layout q.cache scope

/-- A definition differs from its source in the aims of references. -/
theorem alike_of_relWithin {setting : Setting} {scope : Scope} {q : Pass} {room : Nat} {a b : Node}
    (sound : q.cache.Sound setting.layout setting.fetcher)
    (related : Node.RelWithin (Followed setting scope · · q) (DepthReported setting scope q) room
      a b) : a.Alike b :=
  related.alike fun _ _ h => (h.becomes sound).unaimed_eq

/-- A definition that was made of a source is read back exactly if no reference was mismade. -/
theorem readsBack_iff_of_relWithin {setting : Setting} {scope : Scope} {q : Pass} {room : Nat}
    {part : Json} (wellFormed : part.WellFormed) {b : Node}
    (sound : q.cache.Sound setting.layout setting.fetcher)
    (related : Node.RelWithin (Followed setting scope · · q) (DepthReported setting scope q) room
      (Node.ofJson setting.layout part) b) :
    Node.ofJson setting.layout b.toJson = b ↔
      ∀ place r r', (Node.ofJson setting.layout part).refAt? place = some r →
        b.refAt? place = some r' → ¬ r.IsMismade q.cache.root scope r' := by
  rw [readsBack_iff wellFormed (alike_of_relWithin sound related)]
  constructor
  · exact fun all place r r' _ there mismade => mismade.not_isReadBack (all place r' there)
  · intro none place r' there
    obtain ⟨r, found, at'⟩ := optionRel_right (related.refAt? place) there
    have before := allRefs_isReadBack wellFormed place r found
    rcases at' with ⟨-, followed⟩ | ⟨-, rfl, -⟩
    · exact (followed.becomes sound).isReadBack before (none place r r' found there)
    · exact before

/-- The definitions of a bundle are those of its sources, and each is read back as it is exactly if
none of its references was mismade. -/
def Resolved.ReadsBack (document : Document) (copies : List Copy) (result : Resolved) : Prop :=
  List.Forall₂ (fun source entry =>
      Node.ofJson document.layout entry.2.toJson = entry.2 ↔
        ∀ place r r', source.2.refAt? place = some r → entry.2.refAt? place = some r' →
          ¬ r.IsMismade result.cache.root source.1 r')
    (bundleSources document copies) result.document.definitions

/-- **What is read back.** A definition that a pass leaves is read back as it is, in form, texts and
kinds, unless a reference in it was mismade: a pointer into the root document with the mark of a URL
in it, or the absolute form of a target of an external document, of which the text lacks the mark.
With a reference of these kinds it is not read back. -/
theorem resolve_readsBack {value : Json} (wellFormed : value.WellFormed) {document : Document}
    (read : Document.ofJson value = .ok document) {fetcher : Fetcher} {options : Options}
    {result : Resolved} (resolved : document.resolve fetcher options = .ok result) :
    ∃ copies, result.report.merged = copies.map Copy.merged ∧
      (∀ copy ∈ copies, copy.IsRead document.layout fetcher) ∧
      result.ReadsBack document copies := by
  obtain ⟨root, known⟩ := Document.exists_rootUrl_of_resolve fetcher options document resolved
  obtain ⟨copies, done, bundled⟩ :=
    document.lastPass_bundled fetcher options (Options.isLocation_of_rootUrl known)
  rw [Document.resolve_of_rootUrl fetcher options document known, Except.ok.injEq] at resolved
  subst resolved
  generalize document.lastPass fetcher options root = q at *
  have isRead : ∀ copy ∈ copies, copy.IsRead document.layout fetcher := fun copy member =>
    (bundled.merges.faithful copy member).isRead bundled.sound
  refine ⟨copies, bundled.merges.merged, isRead, ?_⟩
  have sources := (List.forall₂_and_left _ _).2
    ⟨fun source (isSource : source ∈ bundleSources document copies) => isSource,
      bundled.forall₂_sources⟩
  refine sources.imp ?_
  rintro source entry ⟨isSource, room, related⟩
  obtain ⟨part, wellFormed, same⟩ : ∃ part : Json, part.WellFormed ∧
      source.2 = Node.ofJson document.layout part := by
    rcases mem_bundleSources.1 isSource with ⟨before, member, rfl⟩ | ⟨copy, member, rfl⟩
    · exact Document.exists_value_of_mem wellFormed read member
    · obtain ⟨part, loadable, same⟩ := (isRead copy member).exists_value
      exact ⟨part, loadable.wellFormed, same⟩
  rw [same] at related ⊢
  exact readsBack_iff_of_relWithin wellFormed bundled.sound related

/-- The document with the definition that stands in another document, before it is read. -/
def Sample.documentValue : Json :=
  .obj [("definitions", .obj [("Start", .obj [("$ref", .str "pets.yaml#/definitions/Pet")])])]

/-- The bundle of two documents is read back. -/
theorem resolve_readsBack_sample : Sample.documentValue.WellFormed ∧
    Document.ofJson Sample.documentValue = .ok Sample.document ∧
    ∃ result copies, Sample.document.resolve Sample.fetcher .default = .ok result ∧
      copies.length = 2 ∧ result.ReadsBack Sample.document copies := by
  have wellFormed : Sample.documentValue.WellFormed := by
    simp [Sample.documentValue, Json.WellFormed, Json.WellFormedMembers, Entries.Distinct]
  have read : Document.ofJson Sample.documentValue = .ok Sample.document := rfl
  obtain ⟨result, resolved, report⟩ := Sample.exists_result
  obtain ⟨copies, merged, -, back⟩ := resolve_readsBack wellFormed read resolved
  refine ⟨wellFormed, read, result, copies, resolved, ?_, back⟩
  have length := congrArg List.length merged
  rw [report, List.length_map] at length
  exact length.symm

/-! ## References that are misread -/

/-- The text and the kind of the reference that a definition is, and those of the reference that is
read of what is written of it. -/
def Resolved.againAt? (result : Resolved) (name : String) :
    Option ((String × RefFormat) × String × RefFormat) := do
  let node ← Entries.find? name result.document.definitions
  let r ← node.refAt? []
  let r' ← (Node.ofJson result.document.layout node.toJson).refAt? []
  return ((r.reference, r.format), r'.reference, r'.format)

theorem Resolved.exists_misread {result : Resolved} {name : String}
    {before after : String × RefFormat} (again : result.againAt? name = some (before, after))
    (differ : before ≠ after) : ∃ entry ∈ result.document.definitions,
      Node.ofJson result.document.layout entry.2.toJson ≠ entry.2 := by
  simp only [againAt?, Option.bind_eq_bind, Option.bind_eq_some_iff, Option.pure_def,
    Option.some.injEq, Prod.mk.injEq] at again
  obtain ⟨node, found, r, here, r', there, rfl, rfl⟩ := again
  refine ⟨_, Entries.mem_of_find? found, fun back => differ ?_⟩
  rw [back, here, Option.some.injEq] at there
  rw [there]

namespace Sample

/-- A document with a reference to another one, and one to a definition of its own. -/
def misleading : Document :=
  ⟨.swagger2, [("Start", .ref ⟨"pets.yaml#/definitions/Pet", .relativeFile, []⟩),
    ("Back", .ref ⟨"swagger.yaml#/definitions/a://b", .url, []⟩)], [("definitions", .null)]⟩

/-- The document before it is read. -/
def misleadingValue : Json :=
  .obj [("definitions", .obj [("Start", .obj [("$ref", .str "pets.yaml#/definitions/Pet")]),
    ("Back", .obj [("$ref", .str "swagger.yaml#/definitions/a://b")])])]

/-- The definition in the other document is the whole of a document that cannot be had. -/
def unhad : Fetcher :=
  .inMemory [("file:///pets.yaml",
    "definitions: \x7bPet: \x7b$ref: 'urn:example:common#'\x7d\x7d".toUTF8.toList)]

end Sample

/-- The pointer into the root document is taken for a URL when it is read again, and the absolute
form of the URL that could not be had for the bare name of a definition. -/
theorem resolve_misread : Document.ofJson Sample.misleadingValue = .ok Sample.misleading ∧
    ∃ result, Sample.misleading.resolve Sample.unhad .default = .ok result ∧
      result.againAt? "Back" = some (("#/definitions/a://b", .internal),
        "#/definitions/a://b", .url) ∧
      result.againAt? "Pet" = some (("urn:example:common", .url),
        "#/definitions/urn:example:common", .internal) ∧
      ¬ ∀ entry ∈ result.document.definitions,
        Node.ofJson result.document.layout entry.2.toJson = entry.2 := by
  have run : (Sample.misleading.resolve Sample.unhad .default).toOption.map (fun result =>
      (result.againAt? "Back", result.againAt? "Pet"))
      = some (some (("#/definitions/a://b", .internal), "#/definitions/a://b", .url),
        some (("urn:example:common", .url), "#/definitions/urn:example:common", .internal)) := by
    decide +kernel
  obtain ⟨result, resolved, facts⟩ := exists_of_toOption_map run
  obtain ⟨back, pet⟩ := Prod.mk.inj facts
  refine ⟨rfl, result, resolved, back, pet, fun all => ?_⟩
  obtain ⟨entry, member, misread⟩ := Resolved.exists_misread pet (by simp)
  exact misread (all entry member)

end SchemaBundle
