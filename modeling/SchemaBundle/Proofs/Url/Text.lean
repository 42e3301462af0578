import SchemaBundle.Url.Basic

/-!
# The text of a URL determines the URL

`Url.WellFormed` says which characters the parts of a URL avoid. The parts can then be found again
in the text, since each ends where a character stands that it avoids. Hence two well-formed URLs
without fragment that are written alike are equal (`Url.eq_of_text`), and such a URL is written
without `#` (`Url.hash_notMem_text`).
-/

namespace SchemaBundle

namespace Text

/-- None of the characters occurs in the text. -/
def Avoids (refused text : List Char) : Prop :=
  ∀ c ∈ refused, c ∉ text

-- Not searched for: characters are finite in number, so that there is a far slower way to decide.
instance (refused text : List Char) : Decidable (Avoids refused text) :=
  List.decidableBAll (fun c => c ∉ text) refused

/-- What holds of a few characters, checked one by one. -/
theorem forall_mem_of_all {P : Char → Prop} [DecidablePred P] {chars : List Char}
    (h : chars.all (fun c => decide (P c)) = true) : ∀ c ∈ chars, P c := by
  simpa using h

section Avoids

variable {refused text other : List Char} {c : Char}

theorem avoids_nil : Avoids refused [] :=
  fun _ _ => List.not_mem_nil

theorem avoids_append :
    Avoids refused (text ++ other) ↔ Avoids refused text ∧ Avoids refused other := by
  simp only [Avoids, List.mem_append, not_or]
  exact ⟨fun h => ⟨fun c hc => (h c hc).1, fun c hc => (h c hc).2⟩,
    fun h c hc => ⟨h.1 c hc, h.2 c hc⟩⟩

theorem avoids_cons : Avoids refused (c :: text) ↔ c ∉ refused ∧ Avoids refused text := by
  simp only [Avoids, List.mem_cons, not_or]
  exact ⟨fun h => ⟨fun hc => (h c hc).1 rfl, fun d hd => (h d hd).2⟩,
    fun h d hd => ⟨fun e => h.1 (e ▸ hd), h.2 d hd⟩⟩

theorem Avoids.mono (h : Avoids refused text) (sub : ∀ d ∈ other, d ∈ refused) :
    Avoids other text :=
  fun d hd => h d (sub d hd)

/-- A part that avoids a character is known from the text as far as that character. -/
theorem append_inj_of_avoids {x x' y y' : List Char} (hx : c ∉ x) (hx' : c ∉ x')
    (hy : y = [] ∨ y.head? = some c) (hy' : y' = [] ∨ y'.head? = some c)
    (h : x ++ y = x' ++ y') : x = x' ∧ y = y' := by
  induction x generalizing x' with
  | nil =>
    cases x' with
    | nil => exact ⟨rfl, h⟩
    | cons a rest =>
      simp only [List.nil_append, List.cons_append] at h
      subst h
      simp only [reduceCtorEq, List.head?_cons, Option.some.injEq, false_or] at hy
      exact absurd (by simp [hy]) hx'
  | cons a rest ih =>
    cases x' with
    | nil =>
      simp only [List.nil_append, List.cons_append] at h
      subst h
      simp only [reduceCtorEq, List.head?_cons, Option.some.injEq, false_or] at hy'
      exact absurd (by simp [hy']) hx
    | cons b rest' =>
      simp only [List.cons_append, List.cons.injEq] at h
      simp only [List.mem_cons, not_or] at hx hx'
      obtain ⟨hr, hy⟩ := ih hx.2 hx'.2 h.2
      exact ⟨by rw [h.1, hr], hy⟩

theorem append_cons_inj_of_avoids {x x' y y' : List Char} (hx : c ∉ x) (hx' : c ∉ x')
    (h : x ++ c :: y = x' ++ c :: y') : x = x' ∧ y = y' := by
  obtain ⟨hxx, hyy⟩ := append_inj_of_avoids hx hx' (.inr rfl) (.inr rfl) h
  exact ⟨hxx, (List.cons.inj hyy).2⟩

end Avoids

end Text

open Text

/-! ## Well-formed URLs -/

/-- A host as it is written: in brackets if it has colons. -/
structure Host.IsWritten (host : String) : Prop where
  avoids : Avoids ['/', '?', '#', '@'] host.toList
  bracketed : Avoids [':', '['] host.toList ∨
    ∃ inner, host.toList = '[' :: (inner ++ [']']) ∧ ']' ∉ inner

/-- The user does not run into the host, nor the authority into the path. -/
structure Authority.WellFormed (a : Authority) : Prop where
  userinfo : Avoids ['/', '?', '#', '@'] a.userinfo.toList
  host : Host.IsWritten a.host

/-- A segment of a path as it is written. -/
structure UrlPath.IsSegment (segment : String) : Prop where
  avoids : Avoids ['/', '?', '#'] segment.toList
  ne_dot : segment ≠ "."

/-- The path does not run into what follows, nor is it read as an authority. -/
def UrlPath.WellFormed (authority : Option Authority) : UrlPath → Prop
  | .plain text => authority = none ∧ Avoids ['?', '#'] text.toList ∧ text.toList.head? ≠ some '/'
  | .rooted segments => (∀ s ∈ segments, IsSegment s) ∧ (authority = none → segments ≠ [])

/-- The parts of a URL do not run into each other. -/
structure Url.WellFormed (u : Url) : Prop where
  scheme : Avoids [':', '#'] u.scheme.toList
  authority : ∀ a ∈ u.authority, a.WellFormed
  path : u.path.WellFormed u.authority
  query : ∀ q ∈ u.query, '#' ∉ q.toList

/-! ## Authorities -/

namespace Authority

/-- The number behind a host, with its colon. -/
def portChars : Option Nat → List Char
  | some n => ':' :: Nat.toDigits 10 n
  | none => []

theorem toList_text (a : Authority) : a.text.toList =
    (if a.userinfo = "" then [] else a.userinfo.toList ++ ['@']) ++
      (a.host.toList ++ portChars a.portNumber) := by
  obtain ⟨user, host, number⟩ := a
  cases number <;> by_cases h : user = "" <;> simp [text, portChars, h]

theorem isDigit_of_mem_portChars {number : Option Nat} {c : Char} (h : c ∈ portChars number) :
    c = ':' ∨ c.isDigit := by
  cases number with
  | none => simp [portChars] at h
  | some n =>
    rcases List.mem_cons.1 h with rfl | h
    · exact .inl rfl
    · exact .inr (Nat.isDigit_of_mem_toDigits (by decide) (by decide) h)

theorem avoids_portChars (refused : List Char) (h : ∀ c ∈ refused, c ≠ ':' ∧ c.isDigit = false)
    (number : Option Nat) : Avoids refused (portChars number) := by
  intro c hc member
  rcases isDigit_of_mem_portChars member with rfl | digit
  · exact (h _ hc).1 rfl
  · simp [(h _ hc).2] at digit

theorem portChars_injective : Function.Injective portChars := by
  rintro (_ | n) (_ | m) h
  · rfl
  · simp [portChars] at h
  · simp [portChars] at h
  · simp only [portChars, List.cons.injEq, true_and] at h
    rw [← Nat.ofDigitChars_ten_toDigits (n := n), h, Nat.ofDigitChars_ten_toDigits]

theorem portChars_start (number : Option Nat) :
    portChars number = [] ∨ (portChars number).head? = some ':' := by
  cases number <;> simp [portChars]

theorem host_eq_of_chars {g h : String} {m n : Option Nat} (hg : Host.IsWritten g)
    (hh : Host.IsWritten h) (same : g.toList ++ portChars m = h.toList ++ portChars n) :
    g = h ∧ m = n := by
  have mixed {g h : String} {m n : Option Nat} (plain : Avoids [':', '['] g.toList)
      {inner : List Char} (written : h.toList = '[' :: (inner ++ [']']))
      (same : g.toList ++ portChars m = h.toList ++ portChars n) : False := by
    have member : '[' ∈ g.toList ++ portChars m := by simp [same, written]
    rcases List.mem_append.1 member with member | member
    · exact plain _ (by simp) member
    · exact avoids_portChars ['['] (by simp) m _ (by simp) member
  rcases hg.bracketed with hg | ⟨inner, hg, avoids⟩ <;>
    rcases hh.bracketed with hh | ⟨inner', hh, avoids'⟩
  · obtain ⟨hgh, hmn⟩ := append_inj_of_avoids (hg ':' (by simp)) (hh ':' (by simp))
      (portChars_start m) (portChars_start n) same
    exact ⟨String.toList_inj.1 hgh, portChars_injective hmn⟩
  · exact (mixed hg hh same).elim
  · exact (mixed hh hg same.symm).elim
  · rw [hg, hh] at same
    simp only [List.cons_append, List.append_assoc, List.nil_append, List.cons.injEq,
      true_and] at same
    obtain ⟨rfl, hmn⟩ := append_cons_inj_of_avoids avoids avoids' same
    exact ⟨String.toList_inj.1 (hg.trans hh.symm), portChars_injective hmn⟩

theorem eq_of_text {a b : Authority} (ha : a.WellFormed) (hb : b.WellFormed)
    (h : a.text.toList = b.text.toList) : a = b := by
  have noAt {a : Authority} (ha : a.WellFormed) :
      '@' ∉ a.host.toList ++ portChars a.portNumber := by
    rw [List.mem_append, not_or]
    exact ⟨ha.host.avoids _ (by simp),
      avoids_portChars ['@'] (by simp) _ _ (by simp)⟩
  have user : a.userinfo = b.userinfo ∧
      a.host.toList ++ portChars a.portNumber = b.host.toList ++ portChars b.portNumber := by
    rw [toList_text, toList_text] at h
    by_cases hu : a.userinfo = "" <;> by_cases hu' : b.userinfo = ""
    · simp only [hu, hu', if_true, List.nil_append] at h
      exact ⟨hu.trans hu'.symm, h⟩
    · simp only [hu, hu', if_true, if_false, List.nil_append] at h
      exact absurd (by simp [h]) (noAt ha)
    · simp only [hu, hu', if_true, if_false, List.nil_append] at h
      exact absurd (by simp [← h]) (noAt hb)
    · simp only [hu, hu', if_false, List.append_assoc, List.cons_append, List.nil_append] at h
      obtain ⟨hus, h⟩ := append_cons_inj_of_avoids (ha.userinfo '@' (by simp))
        (hb.userinfo '@' (by simp)) h
      exact ⟨String.toList_inj.1 hus, h⟩
  obtain ⟨host, number⟩ := host_eq_of_chars ha.host hb.host user.2
  obtain ⟨_, _, _⟩ := a
  obtain ⟨_, _, _⟩ := b
  simp only [Authority.mk.injEq]
  exact ⟨user.1, host, number⟩

theorem avoids_text {a : Authority} (h : a.WellFormed) :
    Avoids ['/', '?', '#'] a.text.toList := by
  have port := avoids_portChars ['/', '?', '#'] (by simp) a.portNumber
  have host : Avoids ['/', '?', '#'] a.host.toList := h.host.avoids.mono (by simp)
  rw [toList_text, avoids_append, avoids_append]
  refine ⟨?_, host, port⟩
  split
  · exact avoids_nil
  · rw [avoids_append]
    exact ⟨h.userinfo.mono (by simp), by simp [Avoids]⟩

end Authority

/-! ## Paths -/

namespace UrlPath

/-- Segments with a slash before each. -/
def chars (segments : List String) : List Char :=
  segments.flatMap fun s => '/' :: s.toList

theorem toList_text_rooted (segments : List String) :
    (rooted segments).text.toList = chars segments := by
  have go (t : String) : (segments.foldl (fun t s => t ++ "/" ++ s) t).toList
      = t.toList ++ chars segments := by
    induction segments generalizing t with
    | nil => simp [chars]
    | cons s rest ih =>
      rw [List.foldl_cons, ih]
      simp [chars, String.toList_append]
  exact go ""

theorem chars_start (segments : List String) :
    chars segments = [] ∨ (chars segments).head? = some '/' := by
  cases segments <;> simp [chars]

theorem chars_injective {xs ys : List String} (hx : ∀ s ∈ xs, '/' ∉ s.toList)
    (hy : ∀ s ∈ ys, '/' ∉ s.toList) (h : chars xs = chars ys) : xs = ys := by
  induction xs generalizing ys with
  | nil =>
    cases ys with
    | nil => rfl
    | cons => simp [chars] at h
  | cons s rest ih =>
    cases ys with
    | nil => simp [chars] at h
    | cons t more =>
      simp only [chars, List.flatMap_cons, List.cons_append, List.cons.injEq, true_and] at h
      obtain ⟨hst, hrest⟩ := append_inj_of_avoids (hx s (by simp)) (hy t (by simp))
        (chars_start rest) (chars_start more) h
      rw [String.toList_inj.1 hst,
        ih (fun s hs => hx s (by simp [hs])) (fun s hs => hy s (by simp [hs])) hrest]

theorem avoids_chars {segments : List String} (h : ∀ s ∈ segments, IsSegment s) :
    Avoids ['?', '#'] (chars segments) := by
  induction segments with
  | nil => exact avoids_nil
  | cons s rest ih =>
    simp only [chars, List.flatMap_cons, List.cons_append, avoids_cons, avoids_append]
    exact ⟨by simp, (h s (by simp)).avoids.mono (by simp), ih fun s hs => h s (by simp [hs])⟩

end UrlPath

/-! ## URLs -/

namespace Url

/-- The segments as they are written without an authority: a dot stands before an empty segment at
the start that is not the only one. -/
def guarded : List String → List String
  | "" :: s :: rest => "." :: "" :: s :: rest
  | segments => segments

/-- Authority and path as they are written. -/
def front (u : Url) : List Char :=
  match u.authority, u.path with
  | some a, path => '/' :: '/' :: (a.text.toList ++ path.text.toList)
  | none, .plain text => text.toList
  | none, .rooted segments => UrlPath.chars (guarded segments)

/-- The query with its mark. -/
def queryChars : Option String → List Char
  | some q => '?' :: q.toList
  | none => []

theorem toList_pathGuard (scheme : String) (segments : List String) (query : Option String) :
    (pathGuard ⟨scheme, none, .rooted segments, query, none⟩).toList ++ UrlPath.chars segments
      = UrlPath.chars (guarded segments) := by
  unfold pathGuard guarded
  split
  · simp_all [UrlPath.chars]
  · split <;> simp_all

theorem toList_text {u : Url} (h : u.fragment = none) :
    u.text.toList = u.scheme.toList ++ ':' :: (u.front ++ queryChars u.query) := by
  obtain ⟨scheme, authority, path, query, fragment⟩ := u
  subst h
  cases authority with
  | some a => cases query <;> simp [text, front, queryChars]
  | none =>
    cases path with
    | plain t => cases query <;> simp [text, front, queryChars, pathGuard, UrlPath.text]
    | rooted segments =>
      simp only [front, ← toList_pathGuard scheme segments query]
      cases query <;> simp [text, queryChars, UrlPath.toList_text_rooted]

theorem slash_notMem_guarded {segments : List String} (h : ∀ s ∈ segments, UrlPath.IsSegment s) :
    ∀ s ∈ guarded segments, '/' ∉ s.toList := by
  have plain : ∀ s ∈ segments, '/' ∉ s.toList := fun s hs => (h s hs).avoids _ (by simp)
  unfold guarded
  split
  · intro s hs
    rcases List.mem_cons.1 hs with rfl | hs
    · decide
    · exact plain s hs
  · exact plain

theorem guarded_injective {xs ys : List String} (hx : ∀ s ∈ xs, UrlPath.IsSegment s)
    (hy : ∀ s ∈ ys, UrlPath.IsSegment s) (h : guarded xs = guarded ys) : xs = ys := by
  have noDot {zs : List String} (hz : ∀ s ∈ zs, UrlPath.IsSegment s) (rest : List String) :
      zs ≠ "." :: rest := fun e => (hz "." (by simp [e])).ne_dot rfl
  unfold guarded at h
  split at h <;> split at h
  · exact (List.cons.inj h).2
  · exact absurd h.symm (noDot hy _)
  · exact absurd h (noDot hx _)
  · exact h

theorem head?_chars_guarded {segments : List String} (h : segments ≠ []) :
    (UrlPath.chars (guarded segments)).head? = some '/' := by
  unfold guarded
  split
  · simp [UrlPath.chars]
  · obtain ⟨s, rest, rfl⟩ := List.exists_cons_of_ne_nil h
    simp [UrlPath.chars]

theorem chars_guarded_start {segments : List String} (h : ∀ s ∈ segments, UrlPath.IsSegment s)
    (rest : List Char) : UrlPath.chars (guarded segments) ≠ '/' :: '/' :: rest := by
  unfold guarded
  split
  · simp [UrlPath.chars]
  · rename_i other
    match segments, h, other with
    | [], _, _ => simp [UrlPath.chars]
    | [s], h, _ =>
      have avoids := (h s (by simp)).avoids '/' (by simp)
      cases chars : s.toList with
      | nil => simp [UrlPath.chars, chars]
      | cons c more =>
        rw [chars] at avoids
        simp only [List.mem_cons, not_or] at avoids
        simp [UrlPath.chars, chars, Ne.symm avoids.1]
    | s :: t :: more, h, other =>
      have avoids := (h s (by simp)).avoids '/' (by simp)
      cases chars : s.toList with
      | nil =>
        have empty : s = "" := by simpa using chars
        exact (other t more (by rw [empty])).elim
      | cons c more =>
        rw [chars] at avoids
        simp only [List.mem_cons, not_or] at avoids
        simp [UrlPath.chars, chars, Ne.symm avoids.1]

/-- Without an authority no two slashes are written in front. -/
theorem front_ne_slashes {u : Url} (h : u.WellFormed) (none : u.authority = none)
    (rest : List Char) : u.front ≠ '/' :: '/' :: rest := by
  have path := h.path
  rw [none] at path
  unfold front
  rw [none]
  cases hp : u.path with
  | plain t =>
    rw [hp] at path
    exact fun e => path.2.2 (by simp only [] at e; simp [e])
  | rooted segments =>
    rw [hp] at path
    exact chars_guarded_start path.1 rest

/-- Behind an authority the path starts at the root. -/
theorem exists_rooted {u : Url} (h : u.WellFormed) {a : Authority} (there : u.authority = some a) :
    ∃ segments, u.path = .rooted segments ∧ ∀ s ∈ segments, UrlPath.IsSegment s := by
  have path := h.path
  cases hp : u.path with
  | plain t =>
    rw [hp] at path
    simp [UrlPath.WellFormed, there] at path
  | rooted segments =>
    rw [hp] at path
    exact ⟨segments, rfl, path.1⟩

/-- Authority and path are known from how they are written. -/
theorem front_injective {u v : Url} (hu : u.WellFormed) (hv : v.WellFormed)
    (h : u.front = v.front) : u.authority = v.authority ∧ u.path = v.path := by
  cases ha : u.authority with
  | some a =>
    cases hb : v.authority with
    | none =>
      have written : v.front = '/' :: '/' :: (a.text.toList ++ u.path.text.toList) := by
        rw [← h, front, ha]
      exact absurd written (front_ne_slashes hv hb _)
    | some b =>
      obtain ⟨xs, hx, wx⟩ := exists_rooted hu ha
      obtain ⟨ys, hy, wy⟩ := exists_rooted hv hb
      have wa := hu.authority a (by simp [ha])
      have wb := hv.authority b (by simp [hb])
      simp only [front, ha, hb, hx, hy, List.cons.injEq, true_and,
        UrlPath.toList_text_rooted] at h
      obtain ⟨hab, hxy⟩ := append_inj_of_avoids (Authority.avoids_text wa '/' (by simp))
        (Authority.avoids_text wb '/' (by simp)) (UrlPath.chars_start xs)
        (UrlPath.chars_start ys) h
      have same := UrlPath.chars_injective (fun s hs => (wx s hs).avoids _ (by simp))
        (fun s hs => (wy s hs).avoids _ (by simp)) hxy
      rw [Authority.eq_of_text wa wb hab, hx, hy, same]
      exact ⟨rfl, rfl⟩
  | none =>
    cases hb : v.authority with
    | some b =>
      have written : u.front = '/' :: '/' :: (b.text.toList ++ v.path.text.toList) := by
        rw [h, front, hb]
      exact absurd written (front_ne_slashes hu ha _)
    | none =>
      refine ⟨rfl, ?_⟩
      have path := hu.path
      have path' := hv.path
      cases hp : u.path <;> cases hq : v.path <;>
        simp only [hp, hq, ha, hb, UrlPath.WellFormed] at path path' <;>
        simp only [front, ha, hb, hp, hq] at h
      · rw [String.toList_inj.1 h]
      · exact absurd (h ▸ head?_chars_guarded (path'.2 trivial)) path.2.2
      · exact absurd (h ▸ head?_chars_guarded (path.2 trivial)) path'.2.2
      · rw [guarded_injective path.1 path'.1 (UrlPath.chars_injective
          (slash_notMem_guarded path.1) (slash_notMem_guarded path'.1) h)]

theorem avoids_guarded {segments : List String} (h : ∀ s ∈ segments, UrlPath.IsSegment s) :
    Avoids ['?', '#'] (UrlPath.chars (guarded segments)) := by
  have avoids := UrlPath.avoids_chars h
  unfold guarded
  split
  · simpa [UrlPath.chars, avoids_cons] using avoids
  · exact avoids

theorem avoids_front {u : Url} (h : u.WellFormed) : Avoids ['?', '#'] u.front := by
  have path := h.path
  unfold front
  cases ha : u.authority with
  | some a =>
    have authority : Avoids ['?', '#'] a.text.toList :=
      (Authority.avoids_text (h.authority a (by simp [ha]))).mono (by simp)
    cases hp : u.path with
    | plain t => simp [hp, ha, UrlPath.WellFormed] at path
    | rooted segments =>
      rw [hp] at path
      simp only [UrlPath.toList_text_rooted, avoids_cons, avoids_append]
      exact ⟨by simp, by simp, authority, UrlPath.avoids_chars path.1⟩
  | none =>
    cases hp : u.path with
    | plain t =>
      rw [hp] at path
      exact path.2.1
    | rooted segments =>
      rw [hp] at path
      exact avoids_guarded path.1

theorem queryChars_start (query : Option String) :
    queryChars query = [] ∨ (queryChars query).head? = some '?' := by
  cases query <;> simp [queryChars]

theorem queryChars_injective : Function.Injective queryChars := by
  rintro (_ | q) (_ | r) h
  · rfl
  · simp [queryChars] at h
  · simp [queryChars] at h
  · simp only [queryChars, List.cons.injEq, true_and] at h
    rw [String.toList_inj.1 h]

/-- **Two URLs that are written alike are equal.** -/
theorem eq_of_text {u v : Url} (hu : u.WellFormed) (hv : v.WellFormed) (fu : u.fragment = none)
    (fv : v.fragment = none) (h : u.text = v.text) : u = v := by
  have chars := congrArg String.toList h
  rw [toList_text fu, toList_text fv] at chars
  obtain ⟨scheme, chars⟩ := append_cons_inj_of_avoids (hu.scheme ':' (by simp))
    (hv.scheme ':' (by simp)) chars
  obtain ⟨front, query⟩ := append_inj_of_avoids (avoids_front hu '?' (by simp))
    (avoids_front hv '?' (by simp)) (queryChars_start _) (queryChars_start _) chars
  obtain ⟨authority, path⟩ := front_injective hu hv front
  obtain ⟨_, _, _, _, _⟩ := u
  obtain ⟨_, _, _, _, _⟩ := v
  simp only [Url.mk.injEq]
  exact ⟨String.toList_inj.1 scheme, authority, path, queryChars_injective query, fu.trans fv.symm⟩

theorem hash_notMem_text {u : Url} (h : u.WellFormed) (hf : u.fragment = none) :
    '#' ∉ u.text.toList := by
  rw [toList_text hf]
  simp only [List.mem_append, List.mem_cons, not_or]
  refine ⟨h.scheme _ (by simp), by decide, avoids_front h _ (by simp), ?_⟩
  cases hq : u.query with
  | none => simp [queryChars]
  | some q => simpa [queryChars] using h.query q (by simp [hq])

end Url

end SchemaBundle
