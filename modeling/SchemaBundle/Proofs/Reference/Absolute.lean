import Mathlib.Data.List.DropRight
import SchemaBundle.Proofs.Reference.Located

/-!
# Absolute references

What follows a scheme that has a host is read as an authority, whatever the base
(`Url.resolve_of_parse`): the base matters for a special scheme or a file only where fewer than two
slashes stand behind the colon, and the text of a URL that was read always has both. So a target
whose location is read back from its text on its own has one reference that leads to it from every
document, and its key is shown as that of no other target (`Target.locate_canonical`).
-/

namespace SchemaBundle

open Text

namespace Url

/-! ## Blanks and schemes -/

/-- A start without blanks stays when a text is cleaned. -/
theorem cleaned_append {start : List Char} (printed : ∀ c ∈ start, 32 < c.toNat)
    (rest : List Char) : ∃ rest', cleaned (start ++ rest) = start ++ rest' := by
  have unchanged {text : List Char} (h : ∀ c ∈ text, 32 < c.toNat) :
      text.dropWhile (fun c => decide (c.toNat ≤ 32)) = text :=
    List.dropWhile_eq_self_iff.2 fun hl => by simpa using h _ (List.getElem_mem hl)
  have front : start = [] ∨
      (start ++ rest).dropWhile (fun c => decide (c.toNat ≤ 32)) = start ++ rest := by
    cases start with
    | nil => exact .inl rfl
    | cons c more =>
      have above : 32 < c.toNat := printed c (List.mem_cons_self ..)
      refine .inr (List.dropWhile_eq_self_iff.2 fun _ => ?_)
      simpa using above
  rcases front with rfl | front
  · exact ⟨cleaned rest, rfl⟩
  have back : ∃ more, ((start ++ rest).reverse.dropWhile fun c => decide (c.toNat ≤ 32))
      = more ++ start.reverse := by
    rw [List.reverse_append, List.dropWhile_append,
      unchanged fun c hc => printed c (List.mem_reverse.1 hc)]
    split
    · exact ⟨[], rfl⟩
    · exact ⟨_, rfl⟩
  have kept : start.filter (fun c => !(c == '\t' || c == '\n' || c == '\r')) = start := by
    refine List.filter_eq_self.2 fun c hc => ?_
    have ne (d : Char) (hd : d.toNat ≤ 32) : c ≠ d := by
      rintro rfl
      have above := printed c hc
      omega
    simp [ne '\t' (by decide), ne '\n' (by decide), ne '\r' (by decide)]
  obtain ⟨more, back⟩ := back
  unfold cleaned
  dsimp only
  rw [front, back, List.reverse_append, List.reverse_reverse, List.filter_append, kept]
  exact ⟨_, rfl⟩

/-- A scheme is read as far as its colon. -/
theorem scheme?_append {c : Char} {more : List Char} (letter : isAsciiLetter c = true)
    (chars : ∀ d ∈ c :: more, isSchemeChar d = true) (rest : List Char) :
    scheme? (c :: more ++ ':' :: rest)
      = some (String.ofList ((c :: more).map Char.toLower), rest) := by
  have colon : isSchemeChar ':' = false := by decide
  have front : (c :: more ++ ':' :: rest).takeWhile isSchemeChar = c :: more := by
    rw [List.takeWhile_append_of_pos chars, List.takeWhile_cons_of_neg (by simp [colon]),
      List.append_nil]
  have back : (c :: more ++ ':' :: rest).dropWhile isSchemeChar = ':' :: rest := by
    rw [List.dropWhile_append_of_pos chars, List.dropWhile_cons_of_neg (by simp [colon])]
  rw [List.cons_append] at front back ⊢
  unfold scheme?
  simp only [letter, if_true, front, back]

/-! ## Schemes that have a host -/

section Hosted

variable {scheme : String}

theorem mem_of_isSpecial (hosted : (SchemeKind.ofScheme scheme).isSpecial = true) :
    scheme ∈ ["file", "http", "https", "ws", "wss", "ftp"] := by
  unfold SchemeKind.ofScheme at hosted
  split at hosted
  · rename_i file
    exact file ▸ List.mem_cons_self ..
  · split at hosted
    · rename_i special
      exact List.mem_cons_of_mem _ (List.contains_iff_mem.1 special)
    · cases hosted

/-- A scheme that always has a host is read as it is written. -/
theorem scheme?_hosted (hosted : (SchemeKind.ofScheme scheme).isSpecial = true) :
    (∀ c ∈ scheme.toList, 32 < c.toNat) ∧
      ∀ rest, scheme? (scheme.toList ++ ':' :: rest) = some (scheme, rest) := by
  have letters : ∀ s ∈ ["file", "http", "https", "ws", "wss", "ftp"],
      s.toList.all (fun c => decide ('a' ≤ c ∧ c ≤ 'z')) = true ∧ s.toList ≠ [] ∧
        String.ofList (s.toList.map Char.toLower) = s := by decide
  obtain ⟨small, nonempty, lower⟩ := letters scheme (mem_of_isSpecial hosted)
  replace small := forall_mem_of_all small
  have letter {c : Char} (hc : c ∈ scheme.toList) : isAsciiLetter c = true := by
    simp [isAsciiLetter, small c hc]
  refine ⟨fun c hc => ?_, fun rest => ?_⟩
  · have low : 97 ≤ c.toNat := (small c hc).1
    omega
  · obtain ⟨c, more, text⟩ := List.exists_cons_of_ne_nil nonempty
    rw [text] at letter lower ⊢
    rw [scheme?_append (letter (List.mem_cons_self ..))
      (fun d hd => by simp [isSchemeChar, letter hd]), lower]

/-- A URL of a scheme that always has an authority. -/
structure HasHost (scheme : String) (u : Url) : Prop where
  scheme : u.scheme = scheme
  authority : u.authority.isSome = true

theorem hasHost_fileUrl (host : String) (segments : List String) (tail : List Char) :
    HasHost "file" (fileUrl host segments tail) :=
  ⟨rfl, rfl⟩

/-- Without a base, what follows the scheme of a file is a file. -/
theorem hasHost_file (text : List Char) : Gives (HasHost "file") (file none text) := by
  have slashed (c : Char) (rest : List Char) :
      Gives (HasHost "file") (file.slashed none c rest) :=
    gives_ite (gives_ok (hasHost_fileUrl ..)) (gives_ok (hasHost_fileUrl ..))
  have located (text : List Char) : Gives (HasHost "file") (fileAfterSlashes text) :=
    gives_fileAfterSlashes text fun _ _ _ _ _ => hasHost_fileUrl ..
  unfold file
  dsimp only
  split
  · refine gives_ite ?_ (gives_ok (hasHost_fileUrl ..))
    split
    · exact gives_ite (located _) (slashed _ _)
    · exact slashed _ _
  · rename_i impossible
    cases impossible
  · exact gives_ok (hasHost_fileUrl ..)

theorem hasHost_afterScheme (hosted : (SchemeKind.ofScheme scheme).isSpecial = true)
    (text : List Char) : Gives (HasHost scheme) (afterScheme none scheme text) := by
  unfold afterScheme
  split
  · rename_i file
    have same : scheme = "file" := by
      unfold SchemeKind.ofScheme at file
      split at file
      · assumption
      · split at file <;> cases file
    rw [same]
    exact hasHost_file text
  · exact gives_afterSlashes _ fun _ _ _ _ _ _ => ⟨rfl, rfl⟩
  · rename_i other
    rw [other] at hosted
    cases hosted

theorem HasHost.exists_text {u : Url} (h : u.HasHost scheme) :
    ∃ rest, u.text.toList = scheme.toList ++ ':' :: '/' :: '/' :: rest := by
  obtain ⟨written, authority, path, query, fragment⟩ := u
  obtain ⟨rfl, isSome⟩ := h
  obtain ⟨a, rfl⟩ := Option.isSome_iff_exists.1 isSome
  simp [text]

/-- What stands behind two slashes is read without regard to the base. -/
theorem afterScheme_slashes (base : Option Url) (scheme : String) (rest : List Char) :
    afterScheme base scheme ('/' :: '/' :: rest)
      = afterScheme none scheme ('/' :: '/' :: rest) := by
  unfold afterScheme
  split
  · simp [file, isSlash]
  · cases base with
    | none => rfl
    | some b =>
      have slashes :
          ¬(('/' :: '/' :: rest).takeWhile fun c => c == '/' || c == '\\').length < 2 := by
        simp
      simp only [slashes, false_and, if_false]
  · rfl

end Hosted

/-! ## Reading against a base -/

section Schemed

variable {base : Option Url} {text rest : List Char} {scheme : String}

theorem resolve_of_scheme? (found : scheme? (cleaned text) = some (scheme, rest)) :
    resolve base text = afterScheme base scheme rest := by
  unfold resolve
  dsimp only
  rw [found]

theorem parse_without_scheme (found : scheme? (cleaned text) = none) :
    resolve none text = .error .relativeWithoutBase := by
  unfold resolve
  dsimp only
  rw [found]

end Schemed

/-- **A URL that is read back from its text on its own is so against every base.** -/
theorem join_of_parse {u : Url} (h : parse u.text = .ok u) (base : Url) :
    join base u.text = .ok u := by
  unfold parse at h
  unfold join
  cases found : scheme? (cleaned u.text.toList) with
  | none =>
    rw [parse_without_scheme found] at h
    cases h
  | some parts =>
    obtain ⟨scheme, rest⟩ := parts
    rw [resolve_of_scheme? found] at h ⊢
    -- Only a special scheme and a file look at the base.
    cases hosted : (SchemeKind.ofScheme scheme).isSpecial with
    | true =>
      obtain ⟨text, written⟩ := (hasHost_afterScheme hosted rest u h).exists_text
      obtain ⟨printed, read⟩ := scheme?_hosted hosted
      have start : ∀ c ∈ scheme.toList ++ [':', '/', '/'], 32 < c.toNat := by
        have slashes : ∀ c ∈ [':', '/', '/'], 32 < c.toNat := forall_mem_of_all (by decide)
        intro c hc
        exact (List.mem_append.1 hc).elim (printed c) (slashes c)
      obtain ⟨text', clean⟩ := cleaned_append start text
      have same : some (scheme, rest) = some (scheme, '/' :: '/' :: text') := by
        rw [← found, ← read, written]
        simpa using congrArg scheme? clean
      cases same
      rwa [afterScheme_slashes]
    | false =>
      have other : SchemeKind.ofScheme scheme = .other := by
        cases kind : SchemeKind.ofScheme scheme <;> simp_all [SchemeKind.isSpecial]
      unfold afterScheme at h ⊢
      rw [other] at h ⊢
      exact h

@[simp] theorem withoutFragment_withoutFragment (u : Url) :
    u.withoutFragment.withoutFragment = u.withoutFragment := by
  obtain ⟨scheme, authority, path, query, fragment⟩ := u
  cases path with
  | rooted segments => rfl
  | plain t =>
    cases query with
    | some q => rfl
    | none =>
      have trimmed : trimSpaces (trimSpaces t) = trimSpaces t := by
        simp [trimSpaces, List.dropWhile_idempotent]
      simp [withoutFragment, trimmed]

end Url

namespace Target

variable {reference : String} {base : Url} {t : Target}

theorem withoutFragment_of_locate (h : locate reference base = .ok t) :
    t.location.withoutFragment = t.location := by
  unfold locate at h
  dsimp only at h
  split at h
  · cases h
  · split at h
    · cases h
    · cases h
      exact Url.withoutFragment_withoutFragment _

/-- **A located target has one absolute form, and it leads there from everywhere.** Its location has
no fragment, and its pointer is written behind one hash. If the text of the location is read as the
location, the absolute reference is located at the target in every document. Two targets are equal as
soon as their keys are, or only what is shown of their keys. -/
theorem locate_canonical (wellFormed : base.WellFormed) (located : locate reference base = .ok t) :
    t.location.fragment = none ∧ (∀ pointer ∈ t.fragment, IsPointer pointer) ∧
      (Url.parse t.location.text = .ok t.location →
        ∀ other : Url, locate t.absoluteReference other = .ok t) ∧
      ∀ {reference' : String} {base' : Url} {u : Target}, base'.WellFormed →
        locate reference' base' = .ok u →
        (t.key = u.key ↔ t.key.text = u.key.text) ∧ (t.key.text = u.key.text ↔ t = u) := by
  have isLocated : t.IsLocated := isLocated_of_locate wellFormed located
  refine ⟨isLocated.location.whole, isLocated.pointer, fun readBack other => ?_, ?_⟩
  · rw [locate_absoluteReference_iff isLocated]
    unfold Url.ReadsBack
    rw [Url.join_of_parse readBack other]
    exact congrArg some (withoutFragment_of_locate located)
  · intro reference' base' u wellFormed' located'
    have isLocated' : u.IsLocated := isLocated_of_locate wellFormed' located'
    refine ⟨⟨fun same => by rw [same], fun shown => ?_⟩, fun shown => ?_, fun same => by rw [same]⟩
    · rw [eq_of_key_text isLocated isLocated' shown]
    · exact eq_of_key_text isLocated isLocated' shown

/-- Two files that stand in different directories name one schema of a third: as one target, found
from an opaque document too by what is written for it. -/
theorem locate_canonical_common :
    ∃ t, locate "../common/a%20b.yaml?v=1#/definitions/Pet"
        ⟨"file", some ⟨"", "", none⟩, .rooted ["specs", "api", "swagger.yaml"], none, none⟩
        = .ok t ∧
      t.absoluteReference = "file:///specs/common/a%20b.yaml?v=1#/definitions/Pet" ∧
      locate t.absoluteReference ⟨"urn", none, .plain "pets", none, none⟩ = .ok t ∧
      ∃ u, locate "/specs/./common/a b.yaml?v=1#/definitions/Pet"
        ⟨"file", some ⟨"", "", none⟩, .rooted ["other.yaml"], none, none⟩ = .ok u ∧ t = u := by
  have first : locate "../common/a%20b.yaml?v=1#/definitions/Pet"
      ⟨"file", some ⟨"", "", none⟩, .rooted ["specs", "api", "swagger.yaml"], none, none⟩
      = .ok ⟨⟨"file", some ⟨"", "", none⟩, .rooted ["specs", "common", "a%20b.yaml"],
          some "v=1", none⟩, some "/definitions/Pet"⟩ := rfl
  have second : locate "/specs/./common/a b.yaml?v=1#/definitions/Pet"
      ⟨"file", some ⟨"", "", none⟩, .rooted ["other.yaml"], none, none⟩
      = .ok ⟨⟨"file", some ⟨"", "", none⟩, .rooted ["specs", "common", "a%20b.yaml"],
          some "v=1", none⟩, some "/definitions/Pet"⟩ := rfl
  obtain ⟨-, -, everywhere, unique⟩ :=
    locate_canonical (Url.wellFormed_parse "file:///specs/api/swagger.yaml" _ rfl) first
  have same := (unique (Url.wellFormed_parse "file:///other.yaml" _ rfl) second).2.1 (by decide)
  exact ⟨_, first, by decide, everywhere rfl _, _, second, same⟩

end Target

end SchemaBundle
