import Mathlib.Order.Bounds.Basic
import SchemaBundle.Proofs.Cache.Recall
import SchemaBundle.Proofs.Resolve.Place

/-!
# How the search for a name ends

A search looks at one candidate after the other and has no bound of its own (`Pass.Search`). It ends
at a candidate whose definition the fragment shares (`Pass.Shares`), or at a free one
(`Pass.IsFree`), and goes on from one that is occupied (`Pass.IsOccupied`). What a candidate offers
tells which of these it is, so a search has one outcome at most. Since finitely many names are in
use, it does end, with the placement that `Pass.place` gives, at the least candidate that is shared
or free (`Pass.place_least`).
-/

namespace SchemaBundle

namespace Pass

/-! ## One candidate -/

/-- The definition of the name stands for the fragment: it is identical, the options allow it, and
there is no key `$ref` in the fragment. -/
def Shares (options : Options) (node : Node) (p : Pass) (name : String) : Prop :=
  options.reuseIdentical = true ∧ node.toJson.hasRefKey = false ∧
    ∃ present, Entries.find? name p.definitions = some present ∧ present.eqv node = true

/-- No definition has the name, and it was never handed out. -/
def IsFree (p : Pass) (name : String) : Prop :=
  name ∉ Entries.keys p.definitions ∧ name ∉ p.cache.reserved

/-- Another definition has the name, one that is different if the fragment could share an identical
one; or the name was handed out, and its definition is yet to come. -/
def IsOccupied (options : Options) (node : Node) (p : Pass) (name : String) : Prop :=
  (∃ present, Entries.find? name p.definitions = some present ∧
    (options.reuseIdentical = true → node.toJson.hasRefKey = false → present.eqv node = false)) ∨
  (name ∉ Entries.keys p.definitions ∧ name ∈ p.cache.reserved)

/-- What a name offers to a fragment. -/
def offerTo? (options : Options) (node : Node) (p : Pass) (name : String) : Option Placement :=
  p.offer? (options.reuseIdentical && node.isSelfContained) node name

section Candidate

variable {options : Options} {node : Node} {p : Pass} {name : String}

/-- What is offered is an identical definition or a free name. -/
theorem offerTo?_eq_some_iff {placement : Placement} :
    p.offerTo? options node name = some placement ↔
      (p.Shares options node name ∧ .existing name = placement) ∨
        p.IsFree name ∧ .fresh name = placement := by
  rw [offerTo?, offer?_eq_some_iff]
  simp [Shares, IsFree, Node.isSelfContained, and_assoc]

/-- An occupied name offers nothing, and no other does so. -/
theorem offerTo?_eq_none_iff :
    p.offerTo? options node name = none ↔ p.IsOccupied options node name := by
  rw [offerTo?, offer?_eq_none_iff]
  simp [IsOccupied, Node.isSelfContained]

theorem Shares.offerTo?_eq (h : p.Shares options node name) :
    p.offerTo? options node name = some (.existing name) :=
  offerTo?_eq_some_iff.2 (.inl ⟨h, rfl⟩)

theorem IsFree.offerTo?_eq (h : p.IsFree name) :
    p.offerTo? options node name = some (.fresh name) :=
  offerTo?_eq_some_iff.2 (.inr ⟨h, rfl⟩)

end Candidate

/-! ## One candidate after the other -/

/-- The search that has come to the candidate of a number ends in a placement. -/
inductive Search (options : Options) (node : Node) (natural : String) (p : Pass) :
    Nat → Placement → Prop
  | existing {k : Nat} (shares : p.Shares options node (candidate natural k)) :
    Search options node natural p k (.existing (candidate natural k))
  | fresh {k : Nat} (free : p.IsFree (candidate natural k)) :
    Search options node natural p k (.fresh (candidate natural k))
  | next {k : Nat} {placement : Placement}
    (occupied : p.IsOccupied options node (candidate natural k))
    (rest : Search options node natural p (k + 1) placement) :
    Search options node natural p k placement

section Search

variable {options : Options} {node : Node} {natural : String} {p : Pass} {k j : Nat}
  {placement : Placement}

/-- A search ends with the first offer. -/
theorem Search.exists_first (h : p.Search options node natural k placement) :
    ∃ j, k ≤ j ∧ p.offerTo? options node (candidate natural j) = some placement ∧
      ∀ i, k ≤ i → i < j → p.offerTo? options node (candidate natural i) = none := by
  induction h with
  | @existing k shares => exact ⟨k, le_rfl, shares.offerTo?_eq, fun i low high => by omega⟩
  | @fresh k free => exact ⟨k, le_rfl, free.offerTo?_eq, fun i low high => by omega⟩
  | @next k placement occupied rest ih =>
    obtain ⟨j, low, offer, first⟩ := ih
    refine ⟨j, by omega, offer, fun i hi below => ?_⟩
    rcases hi.eq_or_lt with rfl | later
    · exact offerTo?_eq_none_iff.2 occupied
    · exact first i later below

/-- A search comes to an offer if there is none before. -/
theorem search_of_first (low : k ≤ j)
    (offer : p.offerTo? options node (candidate natural j) = some placement)
    (first : ∀ i, k ≤ i → i < j → p.offerTo? options node (candidate natural i) = none) :
    p.Search options node natural k placement := by
  induction low using Nat.decreasingInduction with
  | self =>
    rcases offerTo?_eq_some_iff.1 offer with ⟨shares, rfl⟩ | ⟨free, rfl⟩
    · exact .existing shares
    · exact .fresh free
  | of_succ k below ih =>
    exact .next (offerTo?_eq_none_iff.1 (first k le_rfl below))
      (ih fun i hi => first i (by omega))

/-- **The search from the first candidate on ends in one way**, with the placement of the
fragment. -/
theorem search_iff_eq_place : p.Search options node natural 0 placement ↔
    placement = p.place options natural node := by
  obtain ⟨k, offer, first⟩ := p.place_first options natural node
  constructor
  · intro search
    obtain ⟨j, -, offer', first'⟩ := search.exists_first
    have same : j = k := by
      rcases lt_trichotomy j k with below | same | above
      · cases (first j below).symm.trans offer'
      · exact same
      · cases (first' k (Nat.zero_le k) above).symm.trans offer
    exact Option.some.inj (offer'.symm.trans (same ▸ offer))
  · rintro rfl
    exact search_of_first (Nat.zero_le k) offer fun i _ => first i

end Search

/-- **The name of a fragment is the first that is to be had.** The search among the candidates ends,
in one way only, at the least of them that is shared or free, and its number is no greater than the
number of names in use. If it is shared, the fragment stays with the definition that is there; if it
is free, the fragment gets the name as a new one. The candidates before are occupied. A new name is
neither that of a definition nor one that was ever handed out. -/
theorem place_least (options : Options) (natural : String) (node : Node) (p : Pass) :
    (∀ placement, p.Search options node natural 0 placement ↔
      placement = p.place options natural node) ∧
    ∃ k ≤ p.definitions.length + p.cache.reserved.length,
      IsLeast {k | p.Shares options node (candidate natural k) ∨ p.IsFree (candidate natural k)} k ∧
      (p.Shares options node (candidate natural k) →
        p.place options natural node = .existing (candidate natural k)) ∧
      (p.IsFree (candidate natural k) →
        p.place options natural node = .fresh (candidate natural k)) ∧
      (∀ j < k, p.IsOccupied options node (candidate natural j)) ∧
      ∀ name, p.place options natural node = .fresh name →
        name ∉ Entries.keys p.definitions ∧ name ∉ p.cache.reserved ∧
        ∀ fetcher root past, p.cache = Cache.after fetcher root past →
          ∀ key, Cache.Op.record key name ∉ past := by
  obtain ⟨k, bound, offer, first⟩ := p.exists_first_offer options natural node
  have occupied (j : Nat) (below : j < k) : p.IsOccupied options node (candidate natural j) :=
    offerTo?_eq_none_iff.1 (first j below)
  have unused {name : String} (fresh : p.place options natural node = .fresh name) :
      p.IsFree name := by
    obtain ⟨absent, free⟩ := unused_of_place fresh
    exact ⟨absent, by simpa [Cache.isReserved] using free⟩
  refine ⟨fun _ => search_iff_eq_place, k, bound, ⟨?_, fun j offered => ?_⟩, fun shares => ?_,
    fun free => ?_, occupied, fun name fresh => ⟨(unused fresh).1, (unused fresh).2, ?_⟩⟩
  · exact (offerTo?_eq_some_iff.1 offer).imp And.left And.left
  · by_contra! below
    have nothing := first j below
    rcases offered with shares | free
    · cases shares.offerTo?_eq.symm.trans nothing
    · cases free.offerTo?_eq.symm.trans nothing
  · exact Option.some.inj (offer.symm.trans shares.offerTo?_eq)
  · exact Option.some.inj (offer.symm.trans free.offerTo?_eq)
  · intro fetcher root past isCache key recorded
    have reserved : p.cache.isReserved name = true :=
      isCache ▸ ((Cache.recalls_after fetcher root past).reserved name).2 ⟨key, recorded⟩
    simp [(unused_of_place fresh).2] at reserved

/-! ## A crowded registry -/

namespace Sample

/-- Two of the candidates for a name have definitions, and the one between them was handed out. -/
def crowded : Pass :=
  .start [("Pet", .plain (.bool true)), ("Pet_2", .plain .null)]
    ((Cache.empty ⟨"file", some ⟨"", "", none⟩, .rooted ["swagger.yaml"], none, none⟩).record
      ⟨"file:///pets.yaml", "/Pet_1"⟩ "Pet_1")

end Sample

/-- A fragment `null` shares the second definition. Where nothing is shared, it comes behind it. -/
theorem place_least_crowded :
    Sample.crowded.place .default "Pet" (.plain .null) = .existing "Pet_2" ∧
    Sample.crowded.place { Options.default with reuseIdentical := false } "Pet" (.plain .null)
      = .fresh "Pet_3" := by
  have given (options : Options) : Sample.crowded.IsOccupied options (.plain .null) "Pet_1" :=
    .inr ⟨by decide, by decide⟩
  constructor
  · have other : Sample.crowded.IsOccupied .default (.plain .null) "Pet" :=
      .inl ⟨.plain (.bool true), rfl, fun _ _ => by simp [Node.eqv, Json.eqv]⟩
    have same : Sample.crowded.Shares .default (.plain .null) "Pet_2" :=
      ⟨rfl, rfl, .plain .null, rfl, by simp [Node.eqv, Json.eqv]⟩
    have search : Sample.crowded.Search .default (.plain .null) "Pet" 0 (.existing "Pet_2") :=
      .next other (.next (given _) (@Search.existing _ _ _ _ 2 same))
    exact (((place_least ..).1 _).1 search).symm
  · let options : Options := { Options.default with reuseIdentical := false }
    have present {name : String} (node : Node)
        (found : Entries.find? name Sample.crowded.definitions = some node) :
        Sample.crowded.IsOccupied options (.plain .null) name :=
      .inl ⟨node, found, fun reuse => absurd reuse (by decide)⟩
    have free : Sample.crowded.IsFree "Pet_3" := ⟨by decide, by decide⟩
    have search : Sample.crowded.Search options (.plain .null) "Pet" 0 (.fresh "Pet_3") :=
      .next (present _ rfl) (.next (given _) (.next (present _ rfl)
        (@Search.fresh _ _ _ _ 3 free)))
    exact (((place_least ..).1 _).1 search).symm

end Pass

end SchemaBundle
