import Mathlib.Data.List.TakeWhile
import SchemaBundle.Proofs.Url.Text
import SchemaBundle.Url.Parse

/-!
# The URLs that are read are well formed

What the reader puts into the parts of a URL is encoded, or was searched for the characters that
the part avoids. So whatever `Url.resolve` gives is well formed if the base is
(`Url.wellFormed_resolve`), and what `Url.parse` gives is so outright.
-/

namespace SchemaBundle

open Text

/-! ## Encoded text -/

namespace Percent

/-- The characters with which others are written. -/
def escapes : List Char :=
  ['%', '0', '1', '2', '3', '4', '5', '6', '7', '8', '9', 'A', 'B', 'C', 'D', 'E', 'F']

theorem upperHexDigit_mem (n : Nat) : upperHexDigit n ∈ escapes := by
  have digit : ∀ d < 16, (Nat.digitChar d).toUpper ∈ escapes := by decide
  exact digit _ (Nat.mod_lt n (by decide))

theorem mem_encodeByte {b : UInt8} {c : Char} (h : c ∈ encodeByte b) : c ∈ escapes := by
  simp only [encodeByte, List.mem_cons, List.not_mem_nil, or_false] at h
  rcases h with rfl | rfl | rfl
  · decide
  · exact upperHexDigit_mem _
  · exact upperHexDigit_mem _

variable {refused : Char → Bool} {text : List Char}

theorem mem_encode {c : Char} (h : c ∈ (encode refused text).toList) :
    c ∈ escapes ∨ c ∈ text ∧ refused c = false := by
  simp only [encode, String.toList_ofList, List.mem_flatMap] at h
  obtain ⟨d, hd, h⟩ := h
  unfold encodeChar at h
  split at h
  · obtain ⟨b, _, h⟩ := List.mem_flatMap.1 h
    exact .inl (mem_encodeByte h)
  · rename_i kept
    rw [List.mem_singleton] at h
    subst h
    simp only [Bool.or_eq_true, not_or, Bool.not_eq_true] at kept
    exact .inr ⟨hd, kept.2⟩

theorem avoids_encode_of_refused {chars : List Char}
    (h : ∀ c ∈ chars, c ∉ escapes ∧ refused c = true) :
    Avoids chars (encode refused text).toList := by
  intro c hc member
  rcases mem_encode member with escape | ⟨_, kept⟩
  · exact (h c hc).1 escape
  · simp [(h c hc).2] at kept

/-- Encoded text avoids what is refused and what the text does not have. -/
theorem avoids_encode {chars : List Char}
    (h : ∀ c ∈ chars, c ∉ escapes ∧ (c ∈ text → refused c = true)) :
    Avoids chars (encode refused text).toList := by
  intro c hc member
  rcases mem_encode member with escape | ⟨inText, kept⟩
  · exact (h c hc).1 escape
  · simp [(h c hc).2 inText] at kept

theorem head?_encode {c : Char} (hc : c ∉ escapes)
    (h : (encode refused text).toList.head? = some c) : text.head? = some c := by
  cases text with
  | nil => simp [encode] at h
  | cons d rest =>
    simp only [encode, String.toList_ofList, List.flatMap_cons] at h
    unfold encodeChar at h
    split at h
    · obtain ⟨b, bytes, hb⟩ := List.exists_cons_of_ne_nil (String.utf8EncodeChar_ne_nil (c := d))
      simp only [hb, List.flatMap_cons, encodeByte, List.cons_append, List.head?_cons,
        Option.some.injEq] at h
      exact absurd (h ▸ by decide) hc
    · simpa using h

end Percent

/-! ## Hosts -/

namespace Host

/-- Lower-case hexadecimal digits and colons. -/
def addressChars : List Char :=
  [':', '0', '1', '2', '3', '4', '5', '6', '7', '8', '9', 'a', 'b', 'c', 'd', 'e', 'f']

theorem mem_toDigits_sixteen {c : Char} (n : Nat) (h : c ∈ Nat.toDigits 16 n) :
    c ∈ addressChars := by
  have digit : ∀ d < 16, Nat.digitChar d ∈ addressChars := by decide
  induction n using Nat.strongRecOn with
  | ind n ih =>
    rw [Nat.toDigits_eq_if (by decide)] at h
    split at h
    · rw [List.mem_singleton] at h
      exact h ▸ digit n ‹_›
    · rcases List.mem_append.1 h with h | h
      · exact ih (n / 16) (by omega) h
      · rw [List.mem_singleton] at h
        exact h ▸ digit _ (Nat.mod_lt n (by decide))

theorem mem_intercalate {c d : Char} {pieces : List (List Char)}
    (h : c ∈ List.intercalate [d] pieces) : c = d ∨ ∃ piece ∈ pieces, c ∈ piece := by
  induction pieces with
  | nil => simp [List.intercalate] at h
  | cons piece rest ih =>
    cases rest with
    | nil => exact .inr ⟨piece, by simp, by simpa [List.intercalate] using h⟩
    | cons next more =>
      have unfolded : List.intercalate [d] (piece :: next :: more)
          = piece ++ d :: List.intercalate [d] (next :: more) := by
        simp [List.intercalate, List.intersperse]
      rw [unfolded, List.mem_append, List.mem_cons] at h
      rcases h with h | h | h
      · exact .inr ⟨piece, by simp, h⟩
      · exact .inl h
      · exact (ih h).imp id fun ⟨p, hp, hc⟩ => ⟨p, by simp [hp], hc⟩

theorem isWritten_ipv4Text (n : Nat) : IsWritten (ipv4Text n) := by
  have chars {c : Char} (h : c ∈ (ipv4Text n).toList) : c = '.' ∨ c.isDigit := by
    rw [ipv4Text, String.toList_ofList] at h
    refine (mem_intercalate h).imp id fun ⟨piece, hp, hc⟩ => ?_
    obtain ⟨m, _, rfl⟩ := List.mem_map.1 hp
    exact Nat.isDigit_of_mem_toDigits (by decide) (by decide) hc
  have avoids (refused : List Char) (h : ∀ c ∈ refused, c ≠ '.' ∧ c.isDigit = false) :
      Avoids refused (ipv4Text n).toList := by
    intro c hc member
    rcases chars member with e | digit
    · exact (h c hc).1 e
    · simp [(h c hc).2] at digit
  exact ⟨avoids _ (by simp), .inl (avoids _ (by simp))⟩

theorem isWritten_ipv6Text (groups : List Nat) : IsWritten (ipv6Text groups) := by
  have hex {c : Char} (gs : List Nat)
      (h : c ∈ List.intercalate [':'] (gs.map (Nat.toDigits 16))) : c ∈ addressChars := by
    rcases mem_intercalate h with rfl | ⟨piece, hp, hc⟩
    · decide
    · obtain ⟨m, _, rfl⟩ := List.mem_map.1 hp
      exact mem_toDigits_sixteen m hc
  obtain ⟨inner, text, chars⟩ : ∃ inner, (ipv6Text groups).toList = '[' :: (inner ++ [']']) ∧
      ∀ c ∈ inner, c ∈ addressChars := by
    unfold ipv6Text
    simp only [String.toList_ofList]
    refine ⟨_, rfl, fun c h => ?_⟩
    split at h
    · simp only [List.mem_append, List.mem_cons] at h
      rcases h with h | h | h | h
      · exact hex _ h
      · exact h ▸ by decide
      · exact h ▸ by decide
      · exact hex _ h
    · exact hex _ h
  have avoids (refused : List Char) (h : ∀ c ∈ refused, c ∉ addressChars) :
      Avoids refused inner := fun c hc member => h c hc (chars c member)
  refine ⟨?_, .inr ⟨inner, text, avoids [']'] (forall_mem_of_all (by decide)) _ (by simp)⟩⟩
  rw [text, avoids_cons, avoids_append]
  exact ⟨by decide, avoids _ (forall_mem_of_all (by decide)), by simp [Avoids]⟩

theorem isWritten_of_bracketed {host : List Char} {written : String}
    (h : bracketed host = .ok written) : IsWritten written := by
  unfold bracketed at h
  split at h
  · split at h
    · cases h
      exact isWritten_ipv6Text _
    · cases h
  · cases h

theorem isWritten_of_normalize {host : List Char} {written : String}
    (h : normalize host = .ok written) : IsWritten written := by
  unfold normalize at h
  split at h
  · exact isWritten_of_bracketed h
  · dsimp only at h
    split at h
    · cases h
    · rename_i allowed
      split at h
      · cases h
      · split at h
        · unfold ipv4 at h
          dsimp only at h
          split at h
          · cases h
            exact isWritten_ipv4Text _
          · cases h
        · cases h
          have avoids (refused : List Char) (sub : ∀ c ∈ refused, isForbiddenInDomain c = true) :
              Avoids refused (String.ofList ((Percent.decode host).map
                fun b => (Char.ofNat b.toNat).toLower)).toList := by
            intro c hc member
            rw [String.toList_ofList] at member
            exact allowed (List.any_eq_true.2 ⟨c, member, sub c hc⟩)
          exact ⟨avoids _ (forall_mem_of_all (by decide)),
            .inl (avoids _ (forall_mem_of_all (by decide)))⟩

theorem isWritten_of_keep {host : List Char} {written : String}
    (h : keep host = .ok written) : IsWritten written := by
  unfold keep at h
  split at h
  · exact isWritten_of_bracketed h
  · split at h
    · cases h
    · rename_i allowed
      cases h
      have avoids (refused : List Char)
          (sub : ∀ c ∈ refused, c ∉ Percent.escapes ∧ isForbidden c = true) :
          Avoids refused (Percent.encode Percent.isControl host).toList :=
        Percent.avoids_encode fun c hc => ⟨(sub c hc).1, fun member =>
          absurd (List.any_eq_true.2 ⟨c, member, (sub c hc).2⟩) allowed⟩
      exact ⟨avoids _ (forall_mem_of_all (by decide)),
        .inl (avoids _ (forall_mem_of_all (by decide)))⟩

theorem isWritten_empty : IsWritten "" :=
  ⟨avoids_nil, .inl avoids_nil⟩

end Host

/-! ## Paths -/

namespace Text

theorem notMem_of_mem_pieces {c : Char} {text piece : List Char} (h : piece ∈ pieces c text) :
    c ∉ piece := by
  induction text generalizing piece with
  | nil => simp_all [pieces]
  | cons x rest ih =>
    unfold pieces at h
    split at h
    · rename_i none
      exact absurd none (pieces_ne_nil c rest)
    · rename_i first more found
      rw [found] at ih
      split at h
      · rcases List.mem_cons.1 h with rfl | h
        · exact List.not_mem_nil
        · exact ih h
      · rcases List.mem_cons.1 h with rfl | h
        · rename_i ne
          simpa [Ne.symm ne] using ih (List.mem_cons_self ..)
        · exact ih (List.mem_cons_of_mem _ h)

end Text

namespace Url

open UrlPath

theorem isSegment_empty : IsSegment "" :=
  ⟨avoids_nil, by decide⟩

theorem isSegment_encode {piece : List Char} (slash : '/' ∉ piece)
    (dot : isSingleDot (Percent.encode Percent.inPath piece) ≠ true) :
    IsSegment (Percent.encode Percent.inPath piece) where
  avoids := Percent.avoids_encode (by
    simp only [List.mem_cons, List.not_mem_nil, or_false]
    rintro c (rfl | rfl | rfl)
    · exact ⟨by decide, fun h => absurd h slash⟩
    · exact ⟨by decide, fun _ => by decide⟩
    · exact ⟨by decide, fun _ => by decide⟩)
  ne_dot := fun e => dot (by rw [e]; decide)

theorem isSegment_drive {c d : Char} (h : isDrive [c, d] = true) :
    IsSegment (String.ofList [c, ':']) := by
  have letter : isAsciiLetter c = true := by
    simp only [isDrive, Bool.and_eq_true] at h
    exact h.1
  have ne (e : Char) (he : isAsciiLetter e = false) : e ≠ c := fun same => by
    simp [← same, he] at letter
  refine ⟨?_, fun e => ?_⟩
  · rw [String.toList_ofList]
    simp only [avoids_cons, List.mem_cons, List.not_mem_nil, or_false, not_or]
    exact ⟨⟨(ne _ (by decide)).symm, (ne _ (by decide)).symm, (ne _ (by decide)).symm⟩, by decide,
      avoids_nil⟩
  · simpa using congrArg (List.length ∘ String.toList) e

/-- A list of segments as they are written, of which there is at least one. -/
def IsPath (segments : List String) : Prop :=
  (∀ s ∈ segments, IsSegment s) ∧ segments ≠ []

theorem isPath_append {segments : List String} {s : String} (h : ∀ s ∈ segments, IsSegment s)
    (hs : IsSegment s) : IsPath (segments ++ [s]) := by
  refine ⟨fun t ht => ?_, by simp⟩
  rcases List.mem_append.1 ht with ht | ht
  · exact h t ht
  · exact List.mem_singleton.1 ht ▸ hs

theorem isSegment_of_mem_parent {segments : List String} (h : ∀ s ∈ segments, IsSegment s) :
    ∀ s ∈ parent segments, IsSegment s := by
  unfold parent
  split
  · split
    · exact h
    · exact fun s hs => h s ((List.dropLast_sublist _).subset hs)
  · simp

theorem isPath_walk (kind : SchemeKind) (done : List String) (metDrive : Bool)
    (pieces : List (List Char)) (slash : ∀ piece ∈ pieces, '/' ∉ piece)
    (h : ∀ s ∈ done, IsSegment s) (start : pieces ≠ [] ∨ done ≠ []) :
    IsPath (walk kind done metDrive pieces).segments := by
  induction pieces generalizing done metDrive with
  | nil =>
    unfold walk
    exact ⟨h, start.resolve_left fun none => none rfl⟩
  | cons piece rest ih =>
    have slashes : ∀ piece ∈ rest, '/' ∉ piece := fun p hp => slash p (by simp [hp])
    have here := slash piece (by simp)
    have extended {s : String} (hs : IsSegment s) (metDrive : Bool) :
        IsPath (walk kind (done ++ [s]) metDrive rest).segments :=
      ih _ _ slashes (isPath_append h hs).1 (.inr (by simp))
    have nonempty (empty : ¬rest.isEmpty) : rest ≠ [] := by simpa using empty
    unfold walk
    dsimp only
    split
    · split
      · exact isPath_append (isSegment_of_mem_parent h) isSegment_empty
      · exact ih _ _ slashes (isSegment_of_mem_parent h) (.inl (nonempty ‹_›))
    · split
      · split
        · exact isPath_append h isSegment_empty
        · exact ih _ _ slashes h (.inl (nonempty ‹_›))
      · rename_i dot
        have segment := isSegment_encode here dot
        split
        · split
          · exact extended (isSegment_drive ‹_›) _
          · exact extended segment _
        · exact extended segment _

theorem isPath_extendPath (kind : SchemeKind) {done : List String} (text : List Char)
    (h : ∀ s ∈ done, IsSegment s) : IsPath (extendPath kind done text).segments := by
  have walked := isPath_walk kind done false
    (pieces '/' (text.map fun c => if isSlash kind c then '/' else c))
    (fun _ => notMem_of_mem_pieces) h (.inl (pieces_ne_nil _ _))
  unfold extendPath
  dsimp only
  split
  · unfold withoutEmptyStart
    dsimp only
    split
    · exact ⟨fun s hs => List.mem_singleton.1 hs ▸ isSegment_empty, by simp⟩
    · rename_i nonempty
      exact ⟨fun s hs => walked.1 s ((List.dropWhile_sublist _).subset hs), nonempty⟩
  · exact walked

theorem wellFormed_rooted {segments : List String} (h : IsPath segments)
    (authority : Option Authority) : (UrlPath.rooted segments).WellFormed authority :=
  ⟨h.1, fun _ => h.2⟩

theorem isSegment_of_mem_pathAfterAuthority (kind : SchemeKind) (text : List Char) :
    ∀ s ∈ pathAfterAuthority kind text, IsSegment s := by
  unfold pathAfterAuthority
  split
  · split
    · exact (isPath_extendPath kind _ (by simp)).1
    · exact (isPath_extendPath kind _ (by simp)).1
  · split
    · exact fun s hs => List.mem_singleton.1 hs ▸ isSegment_empty
    · simp

/-! ## Queries, schemes and users -/

theorem hash_notMem_tailParts (kind : SchemeKind) (text : List Char) :
    ∀ q ∈ (tailParts kind text).1, '#' ∉ q.toList := by
  unfold tailParts
  split
  · rename_i rest
    have avoids : Avoids ['#'] (Percent.encode
        (if kind.isSpecial then Percent.inSpecialQuery else Percent.inQuery)
        (rest.takeWhile (· != '#'))).toList := by
      refine Percent.avoids_encode fun c hc => ?_
      rw [List.mem_singleton.1 hc]
      refine ⟨by decide, fun member => ?_⟩
      simpa using List.mem_takeWhile_imp member
    dsimp only
    split
    · rintro q ⟨⟩
      exact avoids _ (by simp)
    · rintro q ⟨⟩
      exact avoids _ (by simp)
  · simp
  · simp

/-- Putting in lower case gives nothing below the small letters that was not there. -/
theorem eq_of_toLower_eq {c d : Char} (hd : d.toNat < 97) (h : c.toLower = d) : c = d := by
  unfold Char.toLower at h
  split at h
  · rename_i upper
    have value := congrArg Char.toNat h
    have low : 65 ≤ c.toNat := upper.1
    have high : c.toNat ≤ 90 := upper.2
    simp at value
    omega
  · exact h

theorem avoids_scheme {text rest : List Char} {scheme : String}
    (h : scheme? text = some (scheme, rest)) : Avoids [':', '#'] scheme.toList := by
  unfold scheme? at h
  split at h
  · split at h
    · split at h
      · simp only [Option.some.injEq, Prod.mk.injEq] at h
        rw [← h.1, String.toList_ofList]
        intro c hc member
        obtain ⟨d, hd, lower⟩ := List.mem_map.1 member
        have allowed := List.mem_takeWhile_imp hd
        have small : ∀ e ∈ [':', '#'], e.toNat < 97 ∧ isSchemeChar e = false :=
          forall_mem_of_all (by decide)
        rw [eq_of_toLower_eq (small c hc).1 lower, (small c hc).2] at allowed
        cases allowed
      · cases h
    · cases h
  · cases h

theorem avoids_userinfo (text : List Char) :
    Avoids ['/', '?', '#', '@'] (userinfo text).toList := by
  have encoded (text : List Char) :
      Avoids ['/', '?', '#', '@'] (Percent.encode Percent.inUserinfo text).toList :=
    Percent.avoids_encode_of_refused (forall_mem_of_all (by decide))
  unfold userinfo
  split
  · exact encoded _
  · rw [String.toList_append, String.toList_append, avoids_append, avoids_append]
    exact ⟨⟨encoded _, by simp [Avoids]⟩, encoded _⟩
  · exact encoded _

/-! ## Reading a URL -/

/-- What a reading gives, if anything, is as `P` says. -/
def Gives {α : Type} (P : α → Prop) (reading : Except UrlError α) : Prop :=
  ∀ u, reading = .ok u → P u

section Gives

variable {α β : Type} {P : β → Prop} {x y : Except UrlError β}

theorem gives_ok {u : β} (h : P u) : Gives P (.ok u) := by
  rintro _ ⟨⟩
  exact h

theorem gives_error {e : UrlError} : Gives P (.error e) := by
  rintro _ ⟨⟩

theorem gives_bind {x : Except UrlError α} {f : α → Except UrlError β}
    (h : ∀ a, x = .ok a → Gives P (f a)) : Gives P (x >>= f) := by
  cases x with
  | error e => exact gives_error
  | ok a => exact h a rfl

theorem gives_throw_bind {e : UrlError} {f : α → Except UrlError β} :
    Gives P ((throw e : Except UrlError α) >>= f) :=
  gives_error

theorem gives_ite {c : Prop} [Decidable c] (hx : Gives P x) (hy : Gives P y) :
    Gives P (if c then x else y) := by
  split
  · exact hx
  · exact hy

end Gives

theorem wellFormed_of_parts {scheme : String} (hs : Avoids [':', '#'] scheme.toList)
    {host : String} (hh : Host.IsWritten host) (user text tail : List Char) (number : Option Nat)
    (kind : SchemeKind) :
    WellFormed ⟨scheme, some ⟨userinfo user, host, number⟩,
      .rooted (pathAfterAuthority kind text), (tailParts kind tail).1,
      (tailParts kind tail).2⟩ where
  scheme := hs
  authority := by
    rintro a ⟨⟩
    exact ⟨avoids_userinfo _, hh⟩
  path := ⟨isSegment_of_mem_pathAfterAuthority kind text, by simp⟩
  query := hash_notMem_tailParts kind tail

/-- What is read after two slashes has the parts of an authority, and a path after it. -/
theorem gives_afterSlashes {P : Url → Prop} {scheme : String} (text : List Char)
    (h : ∀ host, Host.IsWritten host → ∀ (user path tail : List Char) (number : Option Nat),
      P ⟨scheme, some ⟨userinfo user, host, number⟩,
        .rooted (pathAfterAuthority (SchemeKind.ofScheme scheme) path),
        (tailParts (SchemeKind.ofScheme scheme) tail).1,
        (tailParts (SchemeKind.ofScheme scheme) tail).2⟩) :
    Gives P (afterSlashes scheme text) := by
  unfold afterSlashes
  extract_lets kind isEnd authority beyond
  split
  rename_i user afterUser _
  have parts {host : String} (hh : Host.IsWritten host) (x : Option Nat × List Char) :=
    h host hh (user.getD []) (x.2.takeWhile fun c => !endsPath c)
      (x.2.dropWhile fun c => !endsPath c) x.1
  dsimp only
  refine gives_ite gives_throw_bind (gives_ite gives_throw_bind
    (gives_ite (gives_bind fun host h => ?_) (gives_bind fun host h => ?_)))
  · have hh := Host.isWritten_of_normalize h
    split
    · exact gives_ite gives_throw_bind
        (gives_bind fun x _ => gives_ite gives_throw_bind (gives_ok (parts hh x)))
    · exact gives_bind fun x _ => gives_ite gives_throw_bind (gives_ok (parts hh x))
  · have hh := Host.isWritten_of_keep h
    split
    · exact gives_ite gives_throw_bind
        (gives_bind fun x _ => gives_ite gives_throw_bind (gives_ok (parts hh x)))
    · exact gives_bind fun x _ => gives_ite gives_throw_bind (gives_ok (parts hh x))

theorem wellFormed_afterSlashes {scheme : String} (hs : Avoids [':', '#'] scheme.toList)
    (text : List Char) : Gives WellFormed (afterSlashes scheme text) :=
  gives_afterSlashes text fun _ hh user path tail number =>
    wellFormed_of_parts hs hh user path tail number _

theorem wellFormed_fileUrl {host : String} (hh : Host.IsWritten host) {segments : List String}
    (h : IsPath segments) (tail : List Char) : (fileUrl host segments tail).WellFormed where
  scheme := show Avoids [':', '#'] "file".toList by decide
  authority := by
    rintro a ⟨⟩
    exact ⟨avoids_nil, hh⟩
  path := wellFormed_rooted h _
  query := hash_notMem_tailParts .file tail

theorem isPath_filePath (text : List Char) : IsPath (extendPath .file [] text).segments :=
  isPath_extendPath _ _ (by simp)

/-- What is read after the two slashes of a file is a file on a host. -/
theorem gives_fileAfterSlashes {P : Url → Prop} (text : List Char)
    (h : ∀ host, Host.IsWritten host → ∀ segments, IsPath segments → ∀ tail,
      P (fileUrl host segments tail)) : Gives P (fileAfterSlashes text) := by
  have located {host : String} (hh : Host.IsWritten host) (metDrive : Bool) :
      Host.IsWritten (if metDrive then "" else host) := by
    split
    · exact Host.isWritten_empty
    · exact hh
  have parts {host : String} (hh : Host.IsWritten host) (text path tail : List Char) (c : Prop)
      [Decidable c] (metDrive : Bool) :
      Gives P (if c then pure (fileUrl "" (extendPath .file [] text).segments tail)
        else pure (fileUrl (if metDrive then "" else host)
          (extendPath .file [] path).segments tail)) :=
    gives_ite (gives_ok (h _ Host.isWritten_empty _ (isPath_filePath _) _))
      (gives_ok (h _ (located hh _) _ (isPath_filePath _) _))
  unfold fileAfterSlashes
  dsimp only
  refine gives_ite (gives_bind fun host h => ?_) (gives_bind fun host h => ?_)
  · cases h
    exact parts Host.isWritten_empty _ _ _ _ _
  · exact parts (Host.isWritten_of_normalize h) _ _ _ _ _

theorem wellFormed_fileAfterSlashes (text : List Char) :
    Gives WellFormed (fileAfterSlashes text) :=
  gives_fileAfterSlashes text fun _ hh _ path tail => wellFormed_fileUrl hh path tail

section Base

variable {base : Url}

theorem wellFormed_withQuery (hb : base.WellFormed) {query : Option String}
    (hq : ∀ q ∈ query, '#' ∉ q.toList) (fragment : Option String) :
    WellFormed { base with query, fragment } :=
  ⟨hb.scheme, hb.authority, hb.path, hq⟩

theorem wellFormed_withPath (hb : base.WellFormed) {segments : List String} (h : IsPath segments)
    {query : Option String} (hq : ∀ q ∈ query, '#' ∉ q.toList) (fragment : Option String) :
    WellFormed { base with path := .rooted segments, query, fragment } :=
  ⟨hb.scheme, hb.authority, wellFormed_rooted h _, hq⟩

theorem isSegment_of_mem_base (hb : base.WellFormed) {segments : List String}
    (h : base.path = .rooted segments) : ∀ s ∈ segments, IsSegment s := by
  have path := hb.path
  rw [h] at path
  exact path.1

/-- What follows a base as it is, with a query of its own or that of the base. -/
theorem wellFormed_sameFile (hb : base.WellFormed) (kind : SchemeKind) (tail : List Char) :
    WellFormed { base with
      query := if tail.head? = some '?' then (tailParts kind tail).1 else base.query
      fragment := (tailParts kind tail).2 } := by
  refine wellFormed_withQuery hb ?_ _
  split
  · exact hash_notMem_tailParts kind tail
  · exact hb.query

end Base

theorem isWritten_hostOf {base : Option Url} (hb : ∀ b ∈ base, b.WellFormed) :
    Host.IsWritten (hostOf base) := by
  unfold hostOf
  split
  · rename_i a _ _ _
    exact ((hb _ rfl).authority a rfl).host
  · exact Host.isWritten_empty

theorem isSegment_of_driveOf {base : Option Url} (hb : ∀ b ∈ base, b.WellFormed) {drive : String}
    (h : driveOf base = some drive) : IsSegment drive := by
  unfold driveOf at h
  split at h
  · rename_i s _ _ _
    split at h
    · cases h
      exact isSegment_of_mem_base (hb _ rfl) rfl _ (List.mem_cons_self ..)
    · cases h
  · cases h

theorem isSegment_of_mem_fileDirectory {segments : List String} (h : ∀ s ∈ segments, IsSegment s) :
    ∀ s ∈ fileDirectory segments, IsSegment s := by
  unfold fileDirectory
  split
  · split
    · exact h
    · exact fun s hs => h s ((List.dropLast_sublist _).subset hs)
  · simp

theorem wellFormed_file_slashed {base : Option Url} (hb : ∀ b ∈ base, b.WellFormed) (c : Char)
    (rest : List Char) : Gives WellFormed (file.slashed base c rest) := by
  unfold file.slashed
  dsimp only
  refine gives_ite (gives_ok (wellFormed_fileUrl Host.isWritten_empty (isPath_filePath _) _)) ?_
  split
  · rename_i drive found
    have segment := isSegment_of_driveOf hb found
    exact gives_ok (wellFormed_fileUrl Host.isWritten_empty
      (isPath_extendPath _ _ fun s hs => List.mem_singleton.1 hs ▸ segment) _)
  · exact gives_ok (wellFormed_fileUrl (isWritten_hostOf hb) (isPath_filePath _) _)

theorem wellFormed_file_relative {base : Url} (hb : base.WellFormed) (path tail : List Char) :
    Gives WellFormed (file.relative base path tail) := by
  unfold file.relative
  dsimp only
  split
  · exact gives_ok (wellFormed_sameFile hb .file tail)
  · refine gives_ite (gives_ok (wellFormed_fileUrl Host.isWritten_empty (isPath_filePath _) _)) ?_
    split
    · rename_i segments found
      exact gives_ok (wellFormed_withPath hb (isPath_extendPath _ _
        (isSegment_of_mem_fileDirectory (isSegment_of_mem_base hb found)))
        (hash_notMem_tailParts .file tail) _)
    · exact gives_error

theorem wellFormed_file {base : Option Url} (hb : ∀ b ∈ base, b.WellFormed) (text : List Char) :
    Gives WellFormed (file base text) := by
  unfold file
  dsimp only
  split
  · refine gives_ite ?_ ?_
    · split
      · exact gives_ite (wellFormed_fileAfterSlashes _) (wellFormed_file_slashed hb _ _)
      · exact wellFormed_file_slashed hb _ _
    · split
      · exact wellFormed_file_relative (hb _ rfl) _ _
      · exact gives_ok (wellFormed_fileUrl Host.isWritten_empty (isPath_filePath _) _)
  · exact gives_ok (wellFormed_withQuery (hb _ rfl) (hb _ rfl).query _)
  · exact gives_ok (wellFormed_fileUrl Host.isWritten_empty
      ⟨fun s hs => List.mem_singleton.1 hs ▸ isSegment_empty, by simp⟩ _)

theorem wellFormed_relative {base : Url} (hb : base.WellFormed) (text : List Char) :
    Gives WellFormed (relative base text) := by
  unfold relative
  dsimp only
  have extended (text : List Char) : IsPath (extendPath base.kind [] text).segments :=
    isPath_extendPath _ _ (by simp)
  have rooted (text tail : List Char) := gives_ok (wellFormed_withPath hb (extended text)
    (hash_notMem_tailParts base.kind tail) (tailParts base.kind tail).2)
  split
  · exact gives_ok (wellFormed_sameFile hb base.kind _)
  · refine gives_ite ?_ ?_
    · split
      · exact gives_ite (wellFormed_afterSlashes hb.scheme _) (rooted _ _)
      · exact rooted _ _
    · split
      · rename_i segments found
        exact gives_ok (wellFormed_withPath hb (isPath_extendPath _ _ fun s hs =>
          isSegment_of_mem_base hb found s ((List.dropLast_sublist _).subset hs))
          (hash_notMem_tailParts base.kind _) _)
      · exact gives_error

theorem wellFormed_afterOtherScheme {scheme : String} (hs : Avoids [':', '#'] scheme.toList)
    (text : List Char) : Gives WellFormed (afterOtherScheme scheme text) := by
  unfold afterOtherScheme
  dsimp only
  split
  · exact wellFormed_afterSlashes hs _
  · exact gives_ok ⟨hs, by simp, wellFormed_rooted (isPath_extendPath _ _ (by simp)) _,
      hash_notMem_tailParts .other _⟩
  · rename_i noSlash
    refine gives_ok ⟨hs, by simp, ⟨rfl, ?_, ?_⟩, hash_notMem_tailParts .other _⟩
    · refine Percent.avoids_encode fun c hc => ?_
      have kept : ∀ c ∈ ['?', '#'], c ∉ Percent.escapes ∧ endsPath c = true :=
        forall_mem_of_all (by decide)
      refine ⟨(kept c hc).1, fun member => ?_⟩
      simpa [(kept c hc).2] using List.mem_takeWhile_imp member
    · intro h
      have first := Percent.head?_encode (by decide) h
      cases text with
      | nil => simp at first
      | cons c rest =>
        rw [List.head?_takeWhile, Option.filter_eq_some_iff] at first
        exact noSlash rest (by simpa using first.1)

theorem wellFormed_afterScheme {base : Option Url} (hb : ∀ b ∈ base, b.WellFormed)
    {scheme : String} (hs : Avoids [':', '#'] scheme.toList) (text : List Char) :
    Gives WellFormed (afterScheme base scheme text) := by
  unfold afterScheme
  split
  · exact wellFormed_file (fun b h => hb b (Option.filter_eq_some_iff.1 h).1) text
  · dsimp only
    split
    · exact gives_ite (wellFormed_relative (hb _ rfl) _) (wellFormed_afterSlashes hs _)
    · exact wellFormed_afterSlashes hs _
  · exact wellFormed_afterOtherScheme hs text

/-- **What is read against a well-formed base is well formed.** -/
theorem wellFormed_resolve {base : Option Url} (hb : ∀ b ∈ base, b.WellFormed)
    (text : List Char) : Gives WellFormed (resolve base text) := by
  unfold resolve
  dsimp only
  split
  · rename_i found
    exact wellFormed_afterScheme hb (avoids_scheme found) _
  · exact gives_error
  · have hb := hb _ rfl
    split
    · exact gives_ok (wellFormed_withQuery hb hb.query _)
    · refine gives_ite gives_error ?_
      split
      · exact wellFormed_file (by rintro b ⟨⟩; exact hb) _
      · exact wellFormed_relative hb _

/-- The URLs that a text can stand for are well formed. -/
theorem wellFormed_parse (text : String) : Gives WellFormed (parse text) :=
  wellFormed_resolve (by simp) _

/-! ## Dropping the fragment -/

theorem trimSpaces_isPrefix (s : String) : (trimSpaces s).toList <+: s.toList := by
  rw [trimSpaces, String.toList_ofList, ← List.reverse_suffix, List.reverse_reverse]
  exact List.dropWhile_suffix _

theorem wellFormed_withoutFragment {u : Url} (h : u.WellFormed) : u.withoutFragment.WellFormed := by
  unfold withoutFragment
  split
  · rename_i t hp hq
    have path := h.path
    rw [hp] at path
    obtain ⟨none, avoids, start⟩ := path
    have pre := trimSpaces_isPrefix t
    refine ⟨h.scheme, h.authority, ⟨none, fun c hc member => avoids c hc (pre.subset member), ?_⟩,
      h.query⟩
    intro first
    apply start
    obtain ⟨rest, whole⟩ := pre
    rw [← whole, List.head?_append, first]
    rfl
  · exact ⟨h.scheme, h.authority, h.path, h.query⟩

@[simp] theorem fragment_withoutFragment (u : Url) : u.withoutFragment.fragment = none := by
  unfold withoutFragment
  split <;> rfl

end Url

end SchemaBundle
