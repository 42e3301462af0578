import Mathlib.Order.Basic
import Mathlib.Order.Nat
import Mathlib.Tactic.Choose
import SchemaBundle.Proofs.Resolve.Place

/-!
# First come, first served

A fragment gets its name when the first reference to it is followed: the first of its candidates
that is not in use, unless an identical definition has one before. `FirstCome` says of a list of
namings that it came about in this way. Which fragment has which name hangs on the order then. The
names that are used do not (`FirstCome.names_subset`), with two provisos:

* `Uncrowded`: no series of candidates gets as far as a natural name of other fragments. The
  fragments of a natural name then have the first free candidates for themselves, and there are as
  many of these copies as there are different fragments.
* Where a fragment is identical to a definition of the document, one such definition comes before
  every free candidate (`Fragment.AtHome`). The fragment then has the name of a definition in any
  order.
-/

namespace SchemaBundle

open Pass (candidate candidate_injective)

/-! ## Candidates -/

/-- Two candidates are the same only if they are of one series, or if one of the names is itself a
numbered candidate of the other. -/
theorem Pass.candidate_eq_cases {natural natural' : String} {i j : Nat}
    (h : candidate natural i = candidate natural' j) :
    natural = natural' ∨ (0 < j ∧ natural = candidate natural' j) ∨
      (0 < i ∧ natural' = candidate natural i) := by
  rcases Nat.eq_zero_or_pos i with rfl | hi
  · rcases Nat.eq_zero_or_pos j with rfl | hj
    · exact .inl h
    · exact .inr (.inl ⟨hj, h⟩)
  · rcases Nat.eq_zero_or_pos j with rfl | hj
    · exact .inr (.inr ⟨hi, h.symm⟩)
    · left
      -- read backwards, a number ends at the first underscore
      have backwards (name : String) {k : Nat} (pos : 0 < k) : (candidate name k).toList.reverse
          = (Nat.toDigits 10 k).reverse ++ '_' :: name.toList.reverse := by
        simp [candidate, pos.ne']
      have noMark (k : Nat) : '_' ∉ (Nat.toDigits 10 k).reverse := by
        rw [List.mem_reverse]
        exact Nat.underscore_not_in_toDigits
      have cut := congrArg (fun name => Text.splitFirst? '_' name.toList.reverse) h
      simp only [backwards natural hi, backwards natural' hj, Text.splitFirst?_append (noMark _),
        Option.some.injEq, Prod.mk.injEq, List.reverse_inj] at cut
      exact String.toList_inj.1 cut.2

/-! ## Fragments and their names -/

/-- A fragment of a document as it is read: the definition that it is, and the name that it would
naturally take. -/
@[ext]
structure Fragment where
  target : Target
  node : Node
  natural : String

namespace Fragment

/-- A fragment may have the name of another one instead of a name of its own. -/
def Alike (options : Options) (f g : Fragment) : Prop :=
  options.reuseIdentical = true ∧ f.node.isSelfContained = true ∧ g.node.isSelfContained = true ∧
    f.node.eqv g.node = true

/-- A fragment may have the name of a definition of the document. -/
def Matches (options : Options) (definitions : Definitions) (name : String) (f : Fragment) : Prop :=
  options.reuseIdentical = true ∧ f.node.isSelfContained = true ∧
    ∃ present, (name, present) ∈ definitions ∧ present.eqv f.node = true

/-- A fragment is given the name of a definition of the document before any free candidate. -/
def AtHome (options : Options) (definitions : Definitions) (f : Fragment) : Prop :=
  ∃ k, f.Matches options definitions (candidate f.natural k) ∧
    ∀ i < k, candidate f.natural i ∈ Entries.keys definitions

end Fragment

/-- The name that a fragment was given. -/
structure Naming where
  fragment : Fragment
  name : String
  /-- Whether the fragment was copied under the name, and not found to be there. -/
  isCopy : Bool

/-- Where the fragment goes. -/
def Naming.placement (n : Naming) : Pass.Placement :=
  if n.isCopy then .fresh n.name else .existing n.name

theorem Naming.name_placement (n : Naming) : n.placement.name = n.name := by
  unfold placement
  split <;> rfl

/-- A name is in use after some namings. -/
def Taken (definitions : Definitions) (book : List Naming) (name : String) : Prop :=
  name ∈ Entries.keys definitions ∨ ∃ n ∈ book, n.isCopy = true ∧ n.name = name

/-- A fragment may have what stands under a name after some namings. -/
def Shared (options : Options) (definitions : Definitions) (book : List Naming) (name : String)
    (f : Fragment) : Prop :=
  f.Matches options definitions name ∨
    ∃ n ∈ book, n.isCopy = true ∧ n.name = name ∧ n.fragment.Alike options f

/-- A naming that can come next: the fragment is new, and its name is the first candidate that is
either free or that of an identical definition. -/
structure Naming.IsNext (options : Options) (definitions : Definitions) (book : List Naming)
    (n : Naming) (k : Nat) : Prop where
  new : ∀ m ∈ book, m.fragment ≠ n.fragment
  isCandidate : n.name = candidate n.fragment.natural k
  passed : ∀ i < k, Taken definitions book (candidate n.fragment.natural i) ∧
    ¬ Shared options definitions book (candidate n.fragment.natural i) n.fragment
  free : n.isCopy = true → ¬ Taken definitions book n.name
  shared : n.isCopy = false → Shared options definitions book n.name n.fragment

/-- Names that were handed out first come, first served; the latest stands first. -/
inductive FirstCome (options : Options) (definitions : Definitions) : List Naming → Prop
  | nil : FirstCome options definitions []
  | cons {book : List Naming} {n : Naming} {k : Nat} (earlier : FirstCome options definitions book)
      (next : n.IsNext options definitions book k) : FirstCome options definitions (n :: book)

section Naming

variable {options : Options} {definitions : Definitions} {book : List Naming} {m n : Naming}
  {name : String} {f : Fragment} {i j k : Nat}

theorem Taken.cons (h : Taken definitions book name) (n : Naming) :
    Taken definitions (n :: book) name :=
  h.imp_right fun ⟨m, member, rest⟩ => ⟨m, List.mem_cons_of_mem _ member, rest⟩

theorem taken_cons : Taken definitions (n :: book) name ↔
    Taken definitions book name ∨ n.isCopy = true ∧ n.name = name := by
  rw [Taken, Taken, List.exists_mem_cons_iff, or_assoc]
  exact or_congr_right or_comm

theorem Shared.cons (h : Shared options definitions book name f) (n : Naming) :
    Shared options definitions (n :: book) name f :=
  h.imp_right fun ⟨m, member, rest⟩ => ⟨m, List.mem_cons_of_mem _ member, rest⟩

/-- What a fragment has of a definition of the document is a name of the document. -/
theorem Fragment.Matches.mem_keys (h : f.Matches options definitions name) :
    name ∈ Entries.keys definitions := by
  obtain ⟨-, -, present, member, -⟩ := h
  exact List.mem_map_of_mem member

namespace FirstCome

theorem isCandidate (h : FirstCome options definitions book) (member : n ∈ book) :
    ∃ k, n.name = candidate n.fragment.natural k := by
  induction h with
  | nil => cases member
  | cons earlier next ih =>
    rcases List.mem_cons.1 member with rfl | member
    · exact ⟨_, next.isCandidate⟩
    · exact ih member

/-- The candidates before the one that was given are in use, and none is the name of an identical
definition of the document. -/
theorem passed (h : FirstCome options definitions book) (member : n ∈ book)
    (isCandidate : n.name = candidate n.fragment.natural k) (below : i < k) :
    Taken definitions book (candidate n.fragment.natural i) ∧
      ¬ n.fragment.Matches options definitions (candidate n.fragment.natural i) := by
  induction h with
  | nil => cases member
  | cons earlier next ih =>
    rcases List.mem_cons.1 member with rfl | member
    · obtain rfl := candidate_injective _ (isCandidate.symm.trans next.isCandidate)
      obtain ⟨taken, notShared⟩ := next.passed i below
      exact ⟨taken.cons _, fun present => notShared (.inl present)⟩
    · obtain ⟨taken, notPresent⟩ := ih member
      exact ⟨taken.cons _, notPresent⟩

/-- A copy has a name that the document does not have. -/
theorem notMem_keys (h : FirstCome options definitions book) (member : n ∈ book)
    (isCopy : n.isCopy = true) : n.name ∉ Entries.keys definitions := by
  induction h with
  | nil => cases member
  | cons earlier next ih =>
    rcases List.mem_cons.1 member with rfl | member
    · exact fun present => next.free isCopy (.inl present)
    · exact ih member

theorem shared (h : FirstCome options definitions book) (member : n ∈ book)
    (isReused : n.isCopy = false) : Shared options definitions book n.name n.fragment := by
  induction h with
  | nil => cases member
  | cons earlier next ih =>
    rcases List.mem_cons.1 member with rfl | member
    · exact (next.shared isReused).cons _
    · exact (ih member).cons _

/-- Copies have different names. -/
theorem copy_eq (h : FirstCome options definitions book) (hm : m ∈ book) (hn : n ∈ book)
    (copyM : m.isCopy = true) (copyN : n.isCopy = true) (same : m.name = n.name) : m = n := by
  induction h with
  | nil => cases hm
  | cons earlier next ih =>
    rcases List.mem_cons.1 hm with rfl | inM <;> rcases List.mem_cons.1 hn with rfl | inN
    · rfl
    · exact absurd (.inr ⟨n, inN, copyN, same.symm⟩) (next.free copyM)
    · exact absurd (.inr ⟨m, inM, copyM, same⟩) (next.free copyN)
    · exact ih inM inN

/-- A copy under a candidate, and a fragment of the same natural name that was given a later one,
are different: when the later candidate was given, the earlier one was in use already. -/
theorem apart (h : FirstCome options definitions book) (hm : m ∈ book) (hn : n ∈ book)
    (isCopy : m.isCopy = true) (natural : m.fragment.natural = n.fragment.natural)
    (nameM : m.name = candidate n.fragment.natural i)
    (nameN : n.name = candidate n.fragment.natural k) (below : i < k) :
    m.fragment ≠ n.fragment ∧ ¬ m.fragment.Alike options n.fragment := by
  induction h with
  | nil => cases hm
  | cons earlier next ih =>
    rcases List.mem_cons.1 hm with rfl | inM <;> rcases List.mem_cons.1 hn with rfl | inN
    · exact absurd (candidate_injective _ (nameM.symm.trans nameN)) below.ne
    · exact absurd (nameM ▸ (earlier.passed inN nameN below).1) (next.free isCopy)
    · obtain rfl := candidate_injective _ (nameN.symm.trans next.isCandidate)
      exact ⟨next.new m inM, fun alike =>
        (next.passed i below).2 (.inr ⟨m, inM, isCopy, nameM, alike⟩)⟩
    · exact ih inM inN

/-- A fragment with a name that the document does not have is not at home there. -/
theorem not_atHome (h : FirstCome options definitions book) (member : n ∈ book)
    (free : n.name ∉ Entries.keys definitions) : ¬ n.fragment.AtHome options definitions := by
  rintro ⟨i, present, below⟩
  obtain ⟨k, isCandidate⟩ := h.isCandidate member
  rcases Nat.lt_trichotomy i k with lt | rfl | lt
  · exact (h.passed member isCandidate lt).2 present
  · exact free (isCandidate ▸ present.mem_keys)
  · exact free (isCandidate ▸ below k lt)

/-- Nor has a fragment that is not at home there a name of the document. -/
theorem notMem_keys_of_not_atHome (h : FirstCome options definitions book) (member : n ∈ book)
    (home : ∀ k, n.fragment.Matches options definitions (candidate n.fragment.natural k) →
      n.fragment.AtHome options definitions)
    (notHome : ¬ n.fragment.AtHome options definitions) : n.name ∉ Entries.keys definitions := by
  intro present
  cases isCopy : n.isCopy with
  | true => exact h.notMem_keys member isCopy present
  | false =>
    obtain ⟨k, isCandidate⟩ := h.isCandidate member
    rcases h.shared member isCopy with found | ⟨m, hm, copyM, name, -⟩
    · exact notHome (home k (isCandidate ▸ found))
    · exact h.notMem_keys hm copyM (name ▸ present)

end FirstCome

end Naming

/-! ## Series that run into each other -/

/-- A numbered candidate for a name that is free and the natural name of some fragment. -/
def Clashes (definitions : Definitions) (P : Fragment → Prop) (natural : String) (j : Nat) : Prop :=
  0 < j ∧ candidate natural j ∉ Entries.keys definitions ∧
    ∃ g, P g ∧ g.natural = candidate natural j

/-- Fragments that need names of their own among the candidates for one name. -/
structure Contend (options : Options) (definitions : Definitions) (P : Fragment → Prop)
    (natural : String) (rivals : List Fragment) : Prop where
  need : ∀ f ∈ rivals, P f ∧ f.natural = natural ∧ ¬ f.AtHome options definitions
  differ : rivals.Pairwise fun f g => f ≠ g ∧ ¬ f.Alike options g

/-- The numbers below `j` of the candidates for a name that the document does not have. -/
def freeBelow (definitions : Definitions) (natural : String) (j : Nat) : List Nat :=
  (List.range j).filter fun i => candidate natural i ∉ Entries.keys definitions

/-- No series of candidates gets as far as a natural name: there is room enough before it. -/
def Uncrowded (options : Options) (definitions : Definitions) (P : Fragment → Prop) : Prop :=
  ∀ natural j, Clashes definitions P natural j →
    ∀ rivals, Contend options definitions P natural rivals →
      rivals.length ≤ (freeBelow definitions natural j).length

/-- Where no natural name has an underscore, no series gets to one. -/
theorem uncrowded_of_noUnderscore {options : Options} {definitions : Definitions}
    {P : Fragment → Prop} (h : ∀ f, P f → '_' ∉ f.natural.toList) :
    Uncrowded options definitions P := by
  rintro natural j ⟨pos, -, g, leads, numbered⟩
  refine absurd ?_ (h g leads)
  simp [numbered, candidate, pos.ne']

section Series

variable {options : Options} {definitions : Definitions} {P : Fragment → Prop}
  {book book' : List Naming} {m n : Naming} {f g : Fragment} {i j k : Nat}

theorem mem_freeBelow {natural : String} :
    i ∈ freeBelow definitions natural j ↔
      i < j ∧ candidate natural i ∉ Entries.keys definitions := by
  simp [freeBelow]

/-- One candidate is given in two series only where they clash. -/
theorem natural_eq (hf : P f) (hg : P g) (same : candidate f.natural i = candidate g.natural j)
    (free : candidate g.natural j ∉ Entries.keys definitions)
    (notF : ¬ Clashes definitions P f.natural i) (notG : ¬ Clashes definitions P g.natural j) :
    f.natural = g.natural := by
  rcases Pass.candidate_eq_cases same with equal | ⟨pos, numbered⟩ | ⟨pos, numbered⟩
  · exact equal
  · exact absurd ⟨pos, free, f, hf, numbered⟩ notG
  · exact absurd ⟨pos, same ▸ free, g, hg, numbered⟩ notF

namespace FirstCome

/-- A fragment and the copies that have the free candidates before its own contend. -/
theorem contend (h : FirstCome options definitions book) (all : ∀ n ∈ book, P n.fragment)
    (hn : n ∈ book) (isCandidate : n.name = candidate n.fragment.natural k)
    (free : n.name ∉ Entries.keys definitions) (le : j ≤ k)
    (holders : ∀ i ∈ freeBelow definitions n.fragment.natural j, ∃ m ∈ book, m.isCopy = true ∧
      m.name = candidate n.fragment.natural i ∧ m.fragment.natural = n.fragment.natural) :
    ∃ rivals, Contend options definitions P n.fragment.natural rivals ∧
      rivals.length = (freeBelow definitions n.fragment.natural j).length + 1 := by
  have : Inhabited Naming := ⟨n⟩
  choose! holder inBook isCopy name natural using holders
  let indices := freeBelow definitions n.fragment.natural j
  have ascending : indices.Pairwise (· < ·) := List.pairwise_lt_range.filter _
  refine ⟨indices.map (fun i => (holder i).fragment) ++ [n.fragment], ⟨fun f member => ?_, ?_⟩,
    by simp [indices]⟩
  · rcases List.mem_append.1 member with member | member
    · obtain ⟨i, isIndex, rfl⟩ := List.mem_map.1 member
      exact ⟨all _ (inBook i isIndex), natural i isIndex,
        h.not_atHome (inBook i isIndex) (h.notMem_keys (inBook i isIndex) (isCopy i isIndex))⟩
    · obtain rfl := List.mem_singleton.1 member
      exact ⟨all _ hn, rfl, h.not_atHome hn free⟩
  · rw [List.pairwise_append, List.pairwise_map]
    refine ⟨ascending.imp_of_mem fun {i l} hi hl lt => ?_, List.pairwise_singleton .., ?_⟩
    · have nameI := name i hi
      have nameL := name l hl
      rw [← natural l hl] at nameI nameL
      exact h.apart (inBook i hi) (inBook l hl) (isCopy i hi)
        ((natural i hi).trans (natural l hl).symm) nameI nameL lt
    · rintro _ member _ last
      obtain ⟨i, hi, rfl⟩ := List.mem_map.1 member
      obtain rfl := List.mem_singleton.1 last
      have below := (mem_freeBelow.1 hi).1
      exact h.apart (inBook i hi) hn (isCopy i hi) (natural i hi) (name i hi) isCandidate
        (below.trans_le le)

/-- **A series ends before a natural name of other fragments.** Otherwise let `j` be the first such
name that it reaches. The free candidates before `j` have been given to fragments of the same
natural name: by the choice of `j` and by what is known of earlier namings, no other series has got
there. Together with the new fragment these are more than there is room for. -/
theorem lt_of_clashes (h : FirstCome options definitions book) (all : ∀ n ∈ book, P n.fragment)
    (uncrowded : Uncrowded options definitions P) (hn : n ∈ book)
    (isCandidate : n.name = candidate n.fragment.natural k)
    (free : n.name ∉ Entries.keys definitions)
    (clash : Clashes definitions P n.fragment.natural j) : k < j := by
  induction h generalizing n k j with
  | nil => cases hn
  | @cons book new index earlier next ih =>
    have allEarlier : ∀ m ∈ book, P m.fragment := fun m hm => all m (List.mem_cons_of_mem _ hm)
    rcases List.mem_cons.1 hn with rfl | inTail
    · obtain rfl := candidate_injective _ (isCandidate.symm.trans next.isCandidate)
      induction j using Nat.strongRecOn with
      | ind j least =>
        by_contra! le
        have holders : ∀ i ∈ freeBelow definitions n.fragment.natural j, ∃ m ∈ n :: book,
            m.isCopy = true ∧ m.name = candidate n.fragment.natural i ∧
              m.fragment.natural = n.fragment.natural := by
          intro i isFree
          obtain ⟨below, isFree⟩ := mem_freeBelow.1 isFree
          obtain ⟨m, hm, isCopy, name⟩ := (next.passed i (by omega)).1.resolve_left isFree
          obtain ⟨l, isCandidate'⟩ := earlier.isCandidate hm
          refine ⟨m, List.mem_cons_of_mem _ hm, isCopy, name, ?_⟩
          refine natural_eq (allEarlier m hm) (all n hn) (isCandidate'.symm.trans name) isFree ?_ ?_
          · exact fun clash => Nat.lt_irrefl l
              (ih allEarlier hm isCandidate' (by rwa [name]) clash)
          · intro clash
            have lt := least i below clash
            omega
        obtain ⟨rivals, contend, length⟩ :=
          (FirstCome.cons earlier next).contend all hn isCandidate free le holders
        have room := uncrowded _ j clash rivals contend
        omega
    · exact ih allEarlier inTail isCandidate free clash

section Fair

variable (h : FirstCome options definitions book) (all : ∀ n ∈ book, P n.fragment)
  (uncrowded : Uncrowded options definitions P)

include h all uncrowded

/-- A candidate that a series has passed, or got to, was given in that series. -/
theorem natural_eq_of_le (hm : m ∈ book) (hn : n ∈ book)
    (isCandidate : n.name = candidate n.fragment.natural k)
    (free : n.name ∉ Entries.keys definitions) (name : m.name = candidate n.fragment.natural i)
    (le : i ≤ k) (freeM : m.name ∉ Entries.keys definitions) :
    m.fragment.natural = n.fragment.natural := by
  obtain ⟨l, isCandidate'⟩ := h.isCandidate hm
  refine natural_eq (all m hm) (all n hn) (isCandidate'.symm.trans name) (name ▸ freeM) ?_ ?_
  · exact fun clash => Nat.lt_irrefl l
      (h.lt_of_clashes all uncrowded hm isCandidate' freeM clash)
  · intro clash
    have lt := h.lt_of_clashes all uncrowded hn isCandidate free clash
    omega

/-- The free candidates that a series has passed are the names of copies in that series. -/
theorem exists_copy_below (hn : n ∈ book) (isCandidate : n.name = candidate n.fragment.natural k)
    (free : n.name ∉ Entries.keys definitions) (below : i < k)
    (isFree : candidate n.fragment.natural i ∉ Entries.keys definitions) :
    ∃ m ∈ book, m.isCopy = true ∧ m.name = candidate n.fragment.natural i ∧
      m.fragment.natural = n.fragment.natural := by
  obtain ⟨m, hm, isCopy, name⟩ := (h.passed hn isCandidate below).1.resolve_left isFree
  exact ⟨m, hm, isCopy, name, h.natural_eq_of_le all uncrowded hm hn isCandidate free name below.le
    (name ▸ isFree)⟩

/-- A fragment with a name that the document does not have is a copy or like one of its series. -/
theorem exists_copy (hn : n ∈ book) (free : n.name ∉ Entries.keys definitions) :
    ∃ m ∈ book, m.isCopy = true ∧ m.name = n.name ∧ m.fragment.natural = n.fragment.natural ∧
      (m.fragment = n.fragment ∨ m.fragment.Alike options n.fragment) := by
  cases isCopy : n.isCopy with
  | true => exact ⟨n, hn, isCopy, rfl, rfl, .inl rfl⟩
  | false =>
    rcases h.shared hn isCopy with present | ⟨m, hm, isCopy, name, alike⟩
    · exact absurd present.mem_keys free
    · obtain ⟨k, isCandidate⟩ := h.isCandidate hn
      exact ⟨m, hm, isCopy, name, h.natural_eq_of_le all uncrowded hm hn isCandidate free
        (name.trans isCandidate) le_rfl (name ▸ free), .inr alike⟩

/-- A series does not get to a free candidate that no copy has. -/
theorem lt_of_notGiven (hm : m ∈ book) (isCopy : m.isCopy = true)
    (isCandidate : m.name = candidate m.fragment.natural i)
    (isFree : candidate m.fragment.natural k ∉ Entries.keys definitions)
    (notGiven : ∀ n ∈ book, n.isCopy = true → n.name ≠ candidate m.fragment.natural k) : i < k := by
  by_contra! le
  rcases Nat.lt_or_eq_of_le le with below | rfl
  · obtain ⟨n, hn, copyN, name, -⟩ := h.exists_copy_below all uncrowded hm isCandidate
      (h.notMem_keys hm isCopy) below isFree
    exact notGiven n hn copyN name
  · exact notGiven m hm isCopy isCandidate

end Fair

/-- Two copies in one series are not the like of one fragment. -/
theorem ne_of_like (h : FirstCome options definitions book) (all : ∀ n ∈ book, P n.fragment)
    (symm : ∀ f g, P f → P g → f.Alike options g → g.Alike options f)
    (join : ∀ f g g', P f → P g → P g' → f.Alike options g → f.Alike options g' →
      g.Alike options g')
    (hm : m ∈ book) (hn : n ∈ book) (isCopy : m.isCopy = true)
    (natural : m.fragment.natural = n.fragment.natural)
    (nameM : m.name = candidate n.fragment.natural i)
    (nameN : n.name = candidate n.fragment.natural k) (below : i < k) (hf : P f) (hg : P g)
    (likeM : f = m.fragment ∨ f.Alike options m.fragment)
    (likeN : g = n.fragment ∨ g.Alike options n.fragment) : f ≠ g := by
  rintro rfl
  obtain ⟨ne, unlike⟩ := h.apart hm hn isCopy natural nameM nameN below
  rcases likeM with isM | likeM <;> rcases likeN with isN | likeN
  · exact ne (isM.symm.trans isN)
  · exact unlike (isM ▸ likeN)
  · exact unlike (symm _ _ (all n hn) (all m hm) (isN ▸ likeM))
  · exact unlike (join f _ _ hf (all m hm) (all n hn) likeM likeN)

section Books

variable (h : FirstCome options definitions book) (h' : FirstCome options definitions book')
  (all : ∀ n ∈ book, P n.fragment) (all' : ∀ n ∈ book', P n.fragment)
  (full : ∀ f, P f → ∃ n ∈ book, n.fragment = f) (uncrowded : Uncrowded options definitions P)
  (home : ∀ f k, P f → f.Matches options definitions (candidate f.natural k) →
    f.AtHome options definitions)

include h h' all all' full uncrowded home

/-- If no copy of the first book has the name of some copy of the second, each free candidate up to
that name has a copy in the second book, and that one has its like in the first book, among the
candidates before that name. -/
theorem exists_image (hn : n ∈ book') (isCopy : n.isCopy = true)
    (isCandidate : n.name = candidate n.fragment.natural k)
    (none : ∀ m ∈ book, m.isCopy = true → m.name ≠ n.name)
    (isFree : i ∈ freeBelow definitions n.fragment.natural (k + 1)) :
    ∃ c ∈ book', ∃ m ∈ book, ∃ l ∈ freeBelow definitions n.fragment.natural k,
      c.isCopy = true ∧ c.name = candidate n.fragment.natural i ∧
      c.fragment.natural = n.fragment.natural ∧ m.isCopy = true ∧
      m.name = candidate n.fragment.natural l ∧
      (m.fragment = c.fragment ∨ m.fragment.Alike options c.fragment) := by
  obtain ⟨le, isFree⟩ := mem_freeBelow.1 isFree
  have free := h'.notMem_keys hn isCopy
  obtain ⟨c, hc, copyC, nameC, naturalC⟩ : ∃ c ∈ book', c.isCopy = true ∧
      c.name = candidate n.fragment.natural i ∧ c.fragment.natural = n.fragment.natural := by
    rcases Nat.lt_or_eq_of_le (Nat.le_of_lt_succ le) with below | rfl
    · exact h'.exists_copy_below all' uncrowded hn isCandidate free below isFree
    · exact ⟨n, hn, isCopy, isCandidate, rfl⟩
  obtain ⟨o, ho, same⟩ := full c.fragment (all' c hc)
  have notHome := h'.not_atHome hc (h'.notMem_keys hc copyC)
  have freeO := h.notMem_keys_of_not_atHome ho (fun l => same ▸ home _ l (all' c hc))
    (same ▸ notHome)
  obtain ⟨m, hm, copyM, -, naturalM, like⟩ := h.exists_copy all uncrowded ho freeO
  rw [same] at naturalM like
  obtain ⟨l, nameM⟩ := h.isCandidate hm
  have freeM := h.notMem_keys hm copyM
  have naturalN := naturalM.trans naturalC
  have below : l < k := h.lt_of_notGiven all uncrowded hm copyM nameM
    (by rwa [naturalN, ← isCandidate]) (by rwa [naturalN, ← isCandidate])
  rw [naturalN] at nameM
  exact ⟨c, hc, m, hm, l, mem_freeBelow.2 ⟨below, nameM ▸ freeM⟩, copyC, nameC, naturalC, copyM,
    nameM, like⟩

/-- **The names do not hang on the order.** The copies of a natural name have its first free
candidates. If those of the second book got further than those of the first, there would be more of
them; but each stands for a copy of the first book, itself or one that it is like, and no two for
the same. -/
theorem names_subset (symm : ∀ f g, P f → P g → f.Alike options g → g.Alike options f)
    (join : ∀ f g g', P f → P g → P g' → f.Alike options g → f.Alike options g' →
      g.Alike options g')
    (hn : n ∈ book') (isCopy : n.isCopy = true) :
    ∃ m ∈ book, m.isCopy = true ∧ m.name = n.name := by
  by_contra! none
  obtain ⟨k, isCandidate⟩ := h'.isCandidate hn
  have : Inhabited Naming := ⟨n⟩
  have images := fun i =>
    h.exists_image (i := i) h' all all' full uncrowded home hn isCopy isCandidate none
  choose! c hc m hm l hl copyC nameC naturalC copyM nameM like using images
  let indices := freeBelow definitions n.fragment.natural (k + 1)
  have different : ∀ i ∈ indices, ∀ j ∈ indices, i < j → l i ≠ l j := by
    intro i hi j hj lt same
    have equal : m i = m j := h.copy_eq (hm i hi) (hm j hj) (copyM i hi) (copyM j hj)
      ((nameM i hi).trans (same ▸ (nameM j hj).symm))
    have nameI := nameC i hi
    have nameJ := nameC j hj
    rw [← naturalC j hj] at nameI nameJ
    exact h'.ne_of_like all' symm join (hc i hi) (hc j hj) (copyC i hi)
      ((naturalC i hi).trans (naturalC j hj).symm) nameI nameJ lt (all _ (hm i hi))
      (all _ (hm j hj)) (like i hi) (like j hj) (congrArg Naming.fragment equal)
  have nodup : (indices.map l).Nodup := by
    refine (List.nodup_range.filter _).map_on fun i hi j hj same => ?_
    rcases Nat.lt_trichotomy i j with lt | equal | lt
    · exact absurd same (different i hi j hj lt)
    · exact equal
    · exact absurd same.symm (different j hj i hi lt)
  have bound := nodup.length_le_of_subset (fun _ member => by
    obtain ⟨i, hi, rfl⟩ := List.mem_map.1 member
    exact hl i hi)
  have free := h'.notMem_keys hn isCopy
  have length : indices.length = (freeBelow definitions n.fragment.natural k).length + 1 := by
    simp [indices, freeBelow, List.range_succ, List.filter_append, ← isCandidate, free]
  rw [List.length_map] at bound
  omega

end Books

end FirstCome

end Series

end SchemaBundle
