import SchemaBundle.Options
import SchemaBundle.Proofs.Url.Reader
import SchemaBundle.Reference.Target

/-!
# Located targets

What `Target.locate` gives is a well-formed location without fragment and a pointer without `#`
(`Target.isLocated_of_locate`). Two such targets with the same key are equal (`Target.eq_of_key`),
even if their keys are only shown alike (`Target.eq_of_key_text`). In the other direction, a local
pointer leads back into its document exactly if that can be a base (`Target.locate_hash_iff`), and
an absolute reference leads back to its target exactly where the text of the location is read as the
location (`Target.locate_absoluteReference_iff`).
-/

namespace SchemaBundle

open Text

/-- A location: a well-formed URL without fragment. -/
structure Url.IsLocation (u : Url) : Prop where
  wellFormed : u.WellFormed
  whole : u.fragment = none

theorem Url.IsLocation.eq_of_text {u v : Url} (hu : u.IsLocation) (hv : v.IsLocation)
    (h : u.text = v.text) : u = v :=
  Url.eq_of_text hu.wellFormed hv.wellFormed hu.whole hv.whole h

theorem Url.isLocation_withoutFragment {u : Url} (h : u.WellFormed) :
    u.withoutFragment.IsLocation :=
  ⟨Url.wellFormed_withoutFragment h, Url.fragment_withoutFragment u⟩

theorem Options.isLocation_of_rootUrl {options : Options} {root : Url}
    (h : options.rootUrl = .ok root) : root.IsLocation := by
  unfold rootUrl at h
  dsimp only at h
  split at h
  · rename_i url parsed
    cases h
    exact Url.isLocation_withoutFragment (Url.wellFormed_parse _ _ parsed)
  · cases h

/-- The text at a location, read in a document at a base, is the location. -/
def Url.ReadsBack (base location : Url) : Prop :=
  ((Url.join base location.text).map Url.withoutFragment).toOption = some location

namespace Target

/-- A pointer as it stands behind the hash of a reference. -/
structure IsPointer (pointer : String) : Prop where
  noHash : '#' ∉ pointer.toList
  slash : pointer.toList.head? = some '/'
  ne_slash : pointer ≠ "/"

/-- A target as it is located. -/
structure IsLocated (t : Target) : Prop where
  location : t.location.IsLocation
  pointer : ∀ g ∈ t.fragment, IsPointer g

theorem isPointer_of_pointer? {reference pointer : String} {behind : Option (List Char)}
    (h : pointer? reference behind = .ok (some pointer)) :
    IsPointer pointer ∧ behind = some pointer.toList := by
  unfold pointer? at h
  split at h
  · cases h
  · rename_i fragment
    split at h
    · cases h
    · rename_i noHash
      split at h
      · cases h
      · rename_i ne
        split at h
        · rename_i slash
          cases h
          simp only [not_or] at ne
          refine ⟨⟨?_, by rwa [String.toList_ofList], fun e => ?_⟩, by rw [String.toList_ofList]⟩
          · simpa using noHash
          · exact ne.2 (by simpa using congrArg String.toList e)
        · cases h

theorem pointer?_of_isPointer {pointer : String} (h : IsPointer pointer) (reference : String) :
    pointer? reference (some pointer.toList) = .ok (some pointer) := by
  have ne_nil : pointer.toList ≠ [] := by
    intro e
    simpa [e] using h.slash
  have ne_slash : pointer.toList ≠ ['/'] := fun e =>
    h.ne_slash (String.toList_inj.1 e)
  unfold pointer?
  simp only [List.contains_eq_mem, h.noHash, decide_false, Bool.false_eq_true, if_false, ne_nil,
    ne_slash, or_self, h.slash, if_true, String.ofList_toList]

/-- Whatever is located is so as keys expect it. -/
theorem isLocated_of_locate {reference : String} {base : Url} (hb : base.WellFormed) {t : Target}
    (h : locate reference base = .ok t) : t.IsLocated := by
  unfold locate at h
  dsimp only at h
  split at h
  · cases h
  · rename_i fragment read
    split at h
    · cases h
    · rename_i location joined
      cases h
      refine ⟨Url.isLocation_withoutFragment (Url.wellFormed_resolve ?_ _ _ joined), ?_⟩
      · rintro b ⟨⟩
        exact hb
      · rintro g ⟨⟩
        exact (isPointer_of_pointer? read).1

/-- **The key of a located target determines it.** -/
theorem eq_of_key {t t' : Target} (ht : t.IsLocated) (ht' : t'.IsLocated) (h : t.key = t'.key) :
    t = t' := by
  obtain ⟨location, fragment⟩ := t
  obtain ⟨location', fragment'⟩ := t'
  simp only [key, TargetKey.mk.injEq] at h
  have empty {g : String} (hg : IsPointer g) : g ≠ "" := by
    rintro rfl
    simpa using hg.slash
  have same : fragment = fragment' := by
    cases fragment with
    | none =>
      cases fragment' with
      | none => rfl
      | some g => exact absurd h.2.symm (empty (ht'.pointer g rfl))
    | some g =>
      cases fragment' with
      | none => exact absurd h.2 (empty (ht.pointer g rfl))
      | some g' => exact congrArg some h.2
  rw [mk.injEq]
  exact ⟨ht.location.eq_of_text ht'.location h.1, same⟩

theorem IsLocated.key_text {t : Target} (ht : t.IsLocated) : '#' ∉ t.key.location.toList :=
  Url.hash_notMem_text ht.location.wellFormed ht.location.whole

/-- Targets that are shown alike are equal. -/
theorem eq_of_key_text {t t' : Target} (ht : t.IsLocated) (ht' : t'.IsLocated)
    (h : t.key.text = t'.key.text) : t = t' := by
  have chars := congrArg String.toList h
  simp only [TargetKey.text, String.toList_append, List.append_assoc] at chars
  obtain ⟨location, fragment⟩ := append_cons_inj_of_avoids ht.key_text ht'.key_text chars
  refine eq_of_key ht ht' ?_
  rw [TargetKey.mk.injEq]
  exact ⟨String.toList_inj.1 location, String.toList_inj.1 fragment⟩

end Target

/-! ## Leading back -/

/-- No text at all stands for the base itself, if it can be a base. -/
theorem Url.resolve_nil {base : Url} (h : base.isOpaque = false) :
    resolve (some base) [] = .ok { base with fragment := none } := by
  unfold resolve
  simp only [cleaned, scheme?, List.dropWhile_nil, List.reverse_nil, List.filter_nil, h,
    Bool.false_eq_true, if_false]
  split
  · rfl
  · simp [relative, tailParts]

theorem Url.resolve_nil_of_isOpaque {base : Url} (h : base.isOpaque = true) :
    resolve (some base) [] = .error .relativeToOpaqueBase := by
  unfold resolve
  simp only [cleaned, scheme?, List.dropWhile_nil, List.reverse_nil, List.filter_nil, h, if_true]

theorem Url.withoutFragment_of_rooted {u : Url} (h : u.isOpaque = false)
    (whole : u.fragment = none) : u.withoutFragment = u := by
  obtain ⟨scheme, authority, path, query, fragment⟩ := u
  cases path with
  | plain t => simp [isOpaque] at h
  | rooted segments =>
    simp only at whole
    simp [withoutFragment, whole]

namespace Target

/-- A reference without a hash. -/
theorem locate_whole {reference : String} (noHash : '#' ∉ reference.toList) (base : Url) :
    locate reference base =
      ((Url.resolve (some base) reference.toList).map fun location =>
        (⟨location.withoutFragment, none⟩ : Target)).mapError fun e =>
          .malformedReference reference (.notAUrl e) := by
  unfold locate
  rw [splitFirst?_eq_none_iff.2 noHash]
  dsimp only [pointer?]
  cases Url.resolve (some base) reference.toList <;> rfl

/-- A reference with a pointer. -/
theorem locate_pointer {file pointer : String} (noHash : '#' ∉ file.toList) (h : IsPointer pointer)
    (base : Url) :
    locate (file ++ "#" ++ pointer) base =
      ((Url.resolve (some base) file.toList).map fun location =>
        (⟨location.withoutFragment, some pointer⟩ : Target)).mapError fun e =>
          .malformedReference (file ++ "#" ++ pointer) (.notAUrl e) := by
  have parts : splitFirst? '#' (file ++ "#" ++ pointer).toList
      = some (file.toList, pointer.toList) := by
    rw [← splitFirst?_append noHash]
    simp
  unfold locate
  rw [parts]
  dsimp only
  rw [pointer?_of_isPointer h]
  cases Url.resolve (some base) file.toList <;> rfl

/-- A local pointer leads into the document that it stands in, unless that cannot be a base. -/
theorem locate_hash_cases {root : Url} (whole : root.fragment = none) {pointer : String}
    (h : IsPointer pointer) :
    root.isOpaque = false ∧ locate ("#" ++ pointer) root = .ok ⟨root, some pointer⟩ ∨
      root.isOpaque = true ∧ locate ("#" ++ pointer) root
        = .error (.malformedReference ("#" ++ pointer) (.notAUrl .relativeToOpaqueBase)) := by
  have located := @locate_pointer "" pointer List.not_mem_nil h root
  rw [String.empty_append, String.toList_empty] at located
  cases base : root.isOpaque with
  | false =>
    have same : ({ root with fragment := none } : Url) = root := by rw [← whole]
    rw [Url.resolve_nil base, same] at located
    refine .inl ⟨rfl, located.trans ?_⟩
    simp [Except.map, Except.mapError, Url.withoutFragment_of_rooted base whole]
  | true =>
    rw [Url.resolve_nil_of_isOpaque base] at located
    exact .inr ⟨rfl, located⟩

theorem locate_hash_iff {root : Url} (whole : root.fragment = none) {pointer : String}
    (h : IsPointer pointer) :
    locate ("#" ++ pointer) root = .ok ⟨root, some pointer⟩ ↔ root.isOpaque = false := by
  rcases locate_hash_cases whole h with ⟨isBase, located⟩ | ⟨isOpaque, refused⟩
  · simp [located, isBase]
  · simp [refused, isOpaque]

/-- An absolute reference leads to its target wherever its location is read back. -/
theorem locate_absoluteReference_iff {t : Target} (ht : t.IsLocated) {root : Url} :
    locate t.absoluteReference root = .ok t ↔ root.ReadsBack t.location := by
  have noHash : '#' ∉ t.location.text.toList := ht.key_text
  have pointer := ht.pointer
  unfold Url.ReadsBack Url.join
  obtain ⟨location, fragment⟩ := t
  cases fragment with
  | none =>
    rw [absoluteReference, locate_whole noHash]
    cases Url.resolve (some root) location.text.toList with
    | error e => simp [Except.map, Except.mapError, Except.toOption]
    | ok read => simp [Except.map, Except.mapError, Except.toOption]
  | some g =>
    rw [absoluteReference, locate_pointer noHash (pointer g rfl)]
    cases Url.resolve (some root) location.text.toList with
    | error e => simp [Except.map, Except.mapError, Except.toOption]
    | ok read => simp [Except.map, Except.mapError, Except.toOption]

end Target

end SchemaBundle
