import SchemaBundle.Proofs.Yaml.Scan
import SchemaBundle.Yaml.Node

/-!
# The nodes of JSON text

The tokens of JSON text are read as the nodes of its value (`Json.node`) if each of its keys was
found to be a key. A key that was not found leaves its colon where no colon may stand.
-/

namespace SchemaBundle

namespace Json

open Yaml

mutual

/-- The node of a value that was written. -/
def node : Json → Yaml.Node
  | .arr items => .sequence none (nodesOfItems items)
  | .obj members => .mapping none (nodesOfMembers members)
  | .str s => .scalar none false (reread s)
  | .null => .scalar none true (String.ofList (scalarChars .null))
  | .bool b => .scalar none true (String.ofList (scalarChars (.bool b)))
  | .int n => .scalar none true (String.ofList (scalarChars (.int n)))
  | .float x => .scalar none true (String.ofList (scalarChars (.float x)))

/-- The nodes of items. -/
def nodesOfItems : List Json → List Yaml.Node
  | [] => []
  | x :: xs => node x :: nodesOfItems xs

/-- The nodes of members. -/
def nodesOfMembers : List (String × Json) → List (Yaml.Node × Yaml.Node)
  | [] => []
  | (key, x) :: xs => (.scalar none false (reread key), node x) :: nodesOfMembers xs

end

end Json

namespace Yaml

/-! ## Readers of tokens -/

/-- What a reader does with tokens, whatever stands behind them: it gives a value, or an error if
the text is not sound. -/
def Parses {α : Type} (reader : ReadM α) (sound : Prop) (tokens : List Token) (value : α) : Prop :=
  ∀ (r : Reader) (rest : List Token),
    (sound → reader.run { r with tokens := tokens ++ rest } = .ok (value, { r with tokens := rest })) ∧
    (¬ sound → ∃ e, reader.run { r with tokens := tokens ++ rest } = .error e)

namespace Parses

variable {α β : Type} {p q : Prop} {ts us : List Token} {t : Token}

theorem bind {reader : ReadM α} {x : α} {next : α → ReadM β} {y : β} (first : Parses reader p ts x)
    (second : Parses (next x) q us y) : Parses (reader >>= next) (p ∧ q) (ts ++ us) y := by
  intro r rest
  obtain ⟨ok, fails⟩ := first r (us ++ rest)
  obtain ⟨ok', fails'⟩ := second r rest
  rw [List.append_assoc, StateT.run_bind]
  by_cases sound : p
  · rw [ok sound]
    exact ⟨fun both => ok' both.2, fun none => fails' fun more => none ⟨sound, more⟩⟩
  · obtain ⟨e, failed⟩ := fails sound
    rw [failed]
    exact ⟨fun both => absurd both.1 sound, fun _ => ⟨e, rfl⟩⟩

theorem peek {next : Option Token → ReadM α} {x : α} (h : Parses (next (some t)) p (t :: ts) x) :
    Parses (ReadM.peek >>= next) p (t :: ts) x :=
  h

theorem drop {next : Unit → ReadM α} {x : α} (h : Parses (next ()) p ts x) :
    Parses (ReadM.drop >>= next) p (t :: ts) x :=
  h

theorem pure (x : α) : Parses (Pure.pure x) True [] x :=
  fun _ _ => ⟨fun _ => rfl, fun none => absurd trivial none⟩

theorem map {reader : ReadM α} {x : α} (h : Parses reader p ts x) (f : α → β) :
    Parses (reader >>= fun a => Pure.pure (f a)) p ts (f x) := by
  have all : Parses (reader >>= fun a => Pure.pure (f a)) (p ∧ True) (ts ++ []) (f x) :=
    h.bind (.pure (f x))
  rwa [List.append_nil, and_true] at all

/-- Of a text that is not sound no value is read. -/
theorem of_not {reader : ReadM α} {x : α} (h : Parses reader p ts x) (unsound : ¬ p) {y : α} :
    Parses reader False ts y :=
  fun r rest => ⟨False.elim, fun _ => (h r rest).2 unsound⟩

theorem of_iff {reader : ReadM α} {x : α} (h : Parses reader p ts x) (iff : p ↔ q) :
    Parses reader q ts x :=
  propext iff ▸ h

theorem fail {e : YamlError} {x : α} : Parses (ReadM.fail e) False ts x :=
  fun _ _ => ⟨False.elim, fun _ => ⟨e, rfl⟩⟩

end Parses

/-! ## Nodes -/

theorem parses_scalar (fuel : ℕ) (block unindented plain : Bool) (text : String) :
    Parses (readNode (fuel + 1) block unindented) True [.scalar plain text]
      (.scalar none plain text) := by
  intro r rest
  refine ⟨fun _ => ?_, fun none => absurd trivial none⟩
  rw [readNode]
  rfl

variable {p : Prop} {ts : List Token}

theorem parses_sequence {fuel : ℕ} (block unindented : Bool) {items : List Node}
    (h : Parses (readFlowSequence fuel true) p ts items) :
    Parses (readNode (fuel + 1) block unindented) p (.flowSequenceStart :: ts)
      (.sequence none items) := by
  rw [readNode]
  exact h.map (Node.sequence none)

theorem parses_mapping {fuel : ℕ} (block unindented : Bool) {entries : List (Node × Node)}
    (h : Parses (readFlowMapping fuel true) p ts entries) :
    Parses (readNode (fuel + 1) block unindented) p (.flowMappingStart :: ts)
      (.mapping none entries) := by
  rw [readNode]
  exact h.map (Node.mapping none)

/-! ## Items and members -/

/-- The tokens with which a value starts. -/
inductive StartsValue : Token → Prop
  | scalar (plain : Bool) (text : String) : StartsValue (.scalar plain text)
  | sequence : StartsValue .flowSequenceStart
  | mapping : StartsValue .flowMappingStart

variable {q : Prop} {us : List Token} {t : Token} {fuel : ℕ}

theorem parses_sequenceEnd (fuel : ℕ) (first : Bool) :
    Parses (readFlowSequence (fuel + 1) first) True [.flowSequenceEnd] [] := by
  intro r rest
  refine ⟨fun _ => ?_, fun none => absurd trivial none⟩
  rw [readFlowSequence]
  rfl

/-- What stands before an item or member: a comma, but not before the first. -/
def separator (first : Bool) : List Token :=
  if first then [] else [.flowEntry]

theorem parses_item {x : Node} {xs : List Node} (first : Bool) (starts : StartsValue t)
    (item : Parses (readNode fuel false false) p (t :: ts) x)
    (items : Parses (readFlowSequence fuel false) q us xs) :
    Parses (readFlowSequence (fuel + 1) first) (p ∧ q) (separator first ++ (t :: ts ++ us))
      (x :: xs) := by
  have both : Parses (do
      let x ← readNode fuel false false
      return x :: (← readFlowSequence fuel false)) (p ∧ q) (t :: ts ++ us) (x :: xs) :=
    item.bind (items.map (List.cons x))
  rw [readFlowSequence]
  cases first <;> cases starts <;> exact both

theorem parses_mappingEnd (fuel : ℕ) (first : Bool) :
    Parses (readFlowMapping (fuel + 1) first) True [.flowMappingEnd] [] := by
  intro r rest
  refine ⟨fun _ => ?_, fun none => absurd trivial none⟩
  rw [readFlowMapping]
  rfl

/-- The colon and the value of a key that was found. -/
theorem parses_memberValue {x : Node} (starts : StartsValue t)
    (value : Parses (readNode fuel false false) p (t :: ts) x) :
    Parses (readFlowValue (fuel + 1)) p (.value :: t :: ts) x := by
  rw [readFlowValue]
  cases starts <;> exact value

/-- A key that was not found leaves its colon over. -/
theorem parses_lostKey (entries : List (Node × Node)) (fuel : ℕ) (us : List Token) :
    Parses (readFlowMapping fuel false) False (.value :: us) entries := by
  refine fun r rest => ⟨False.elim, fun _ => ⟨.malformedStructure, ?_⟩⟩
  cases fuel with
  | zero => rfl
  | succ fuel =>
    rw [readFlowMapping]
    rfl

theorem parses_member {x : Node} {xs : List (Node × Node)} (first : Bool) (key : String)
    (starts : StartsValue t) (value : Parses (readNode fuel false false) p (t :: ts) x)
    (members : Parses (readFlowMapping (fuel + 1) false) q us xs) :
    Parses (readFlowMapping (fuel + 2) first) ((isSimpleKey key = true ∧ p) ∧ q)
      (separator first ++ (keyTokens key ++ (t :: ts ++ us)))
      ((.scalar none false (reread key), x) :: xs) := by
  have scalar := parses_scalar fuel false false false (reread key)
  cases simple : isSimpleKey key with
  | true =>
    have entry : Parses (do
        let key ← readNode (fuel + 1) false false
        let value ← readFlowValue (fuel + 1)
        return (key, value) :: (← readFlowMapping (fuel + 1) false)) (True ∧ p ∧ q)
        ([.scalar false (reread key)] ++ (.value :: t :: ts ++ us))
        ((.scalar none false (reread key), x) :: xs) :=
      scalar.bind ((parses_memberValue starts value).bind (members.map (List.cons _)))
    have both : Parses (readFlowMapping (fuel + 2) first) (True ∧ p ∧ q)
        (separator first ++ (.key :: .scalar false (reread key) :: .value :: t :: ts ++ us))
        ((.scalar none false (reread key), x) :: xs) := by
      rw [readFlowMapping]
      cases first <;> exact entry
    rw [keyTokens, if_pos simple]
    exact both.of_iff (by simp)
  | false =>
    have entry : Parses (do
        let key ← readNode (fuel + 1) false false
        return (key, emptyScalar) :: (← readFlowMapping (fuel + 1) false)) (True ∧ False)
        ([.scalar false (reread key)] ++ (.value :: (t :: ts ++ us)))
        ((.scalar none false (reread key), emptyScalar) :: xs) :=
      scalar.bind ((parses_lostKey xs (fuel + 1) (t :: ts ++ us)).map (List.cons _))
    have none : Parses (readFlowMapping (fuel + 2) first) (True ∧ False)
        (separator first ++ (.scalar false (reread key) :: .value :: (t :: ts ++ us)))
        ((.scalar none false (reread key), emptyScalar) :: xs) := by
      rw [readFlowMapping]
      cases first <;> exact entry
    rw [keyTokens, if_neg (by rw [simple]; exact Bool.false_ne_true)]
    exact (none.of_not (by simp)).of_iff (by simp)

/-! ## Values -/

theorem exists_tokens_eq_cons (value : Json) :
    ∃ t ts, value.tokens = t :: ts ∧ StartsValue t := by
  cases value with
  | arr items => cases items <;> exact ⟨_, _, by rw [Json.tokens], .sequence⟩
  | obj members => cases members <;> exact ⟨_, _, by rw [Json.tokens], .mapping⟩
  | str s => exact ⟨_, _, by rw [Json.tokens, stringToken], .scalar _ _⟩
  | _ => exact ⟨_, _, by rw [Json.tokens], .scalar _ _⟩

theorem two_le_length_keyTokens (key : String) : 2 ≤ (keyTokens key).length := by
  unfold keyTokens
  split <;> simp

/-- Every text is found to be a key at its colon. -/
def AllSimple (keys : List String) : Prop :=
  ∀ key ∈ keys, isSimpleKey key = true

theorem parses_scalar_of_le (block unindented plain : Bool) (text : String) {fuel : ℕ}
    (enough : 1 ≤ fuel) : Parses (readNode fuel block unindented) (AllSimple [])
      [.scalar plain text] (.scalar none plain text) := by
  obtain ⟨fuel, rfl⟩ := Nat.exists_eq_add_of_le' enough
  exact (parses_scalar fuel block unindented plain text).of_iff (by simp [AllSimple])

mutual

/-- The tokens of a value are read as its node. -/
theorem parses_value (block unindented : Bool) : ∀ (value : Json) (fuel : ℕ)
    (_ : value.tokens.length ≤ fuel),
    Parses (readNode fuel block unindented) (AllSimple value.keys) value.tokens value.node
  | .null, fuel, enough => by
    simp only [Json.tokens, Json.keys, Json.node] at enough ⊢
    exact parses_scalar_of_le block unindented true _ enough
  | .bool _, fuel, enough => by
    simp only [Json.tokens, Json.keys, Json.node] at enough ⊢
    exact parses_scalar_of_le block unindented true _ enough
  | .int _, fuel, enough => by
    simp only [Json.tokens, Json.keys, Json.node] at enough ⊢
    exact parses_scalar_of_le block unindented true _ enough
  | .float _, fuel, enough => by
    simp only [Json.tokens, Json.keys, Json.node] at enough ⊢
    exact parses_scalar_of_le block unindented true _ enough
  | .str s, fuel, enough => by
    simp only [Json.tokens, Json.keys, Json.node] at enough ⊢
    exact parses_scalar_of_le block unindented false _ enough
  | .arr [], fuel, enough => by
    simp only [Json.tokens, List.length_cons, List.length_nil] at enough ⊢
    obtain ⟨fuel, rfl⟩ := Nat.exists_eq_add_of_le' enough
    have all := parses_sequence block unindented (parses_sequenceEnd fuel true)
    simp only [Json.keys, Json.keysOfItems, Json.node, Json.nodesOfItems]
    exact all.of_iff (by simp [AllSimple])
  | .arr (x :: xs), fuel, enough => by
    obtain ⟨t, ts, tokens, starts⟩ := exists_tokens_eq_cons x
    have some := congrArg List.length tokens
    simp only [Json.tokens, List.length_cons, List.length_append, List.length_nil] at enough some ⊢
    obtain ⟨fuel, rfl⟩ := Nat.exists_eq_add_of_le' (show 2 ≤ fuel by omega)
    have item := parses_value false false x fuel (by omega)
    have items := parses_items xs fuel (by omega)
    rw [tokens] at item ⊢
    have all := parses_sequence block unindented (parses_item true starts item items)
    simp only [Json.keys, Json.keysOfItems, Json.node, Json.nodesOfItems]
    exact all.of_iff (by simp only [AllSimple, List.forall_mem_append])
  | .obj [], fuel, enough => by
    simp only [Json.tokens, List.length_cons, List.length_nil] at enough ⊢
    obtain ⟨fuel, rfl⟩ := Nat.exists_eq_add_of_le' enough
    have all := parses_mapping block unindented (parses_mappingEnd fuel true)
    simp only [Json.keys, Json.keysOfMembers, Json.node, Json.nodesOfMembers]
    exact all.of_iff (by simp [AllSimple])
  | .obj ((key, x) :: xs), fuel, enough => by
    have two := two_le_length_keyTokens key
    obtain ⟨t, ts, tokens, starts⟩ := exists_tokens_eq_cons x
    simp only [Json.tokens, List.length_cons, List.length_append, List.length_nil] at enough ⊢
    obtain ⟨fuel, rfl⟩ := Nat.exists_eq_add_of_le' (show 3 ≤ fuel by omega)
    have value := parses_value false false x fuel (by omega)
    have members := parses_members xs (fuel + 1) (by omega)
    rw [tokens] at value ⊢
    have all := parses_mapping block unindented (parses_member true key starts value members)
    simp only [Json.keys, Json.keysOfMembers, Json.node, Json.nodesOfMembers]
    exact all.of_iff (by simp only [AllSimple, List.forall_mem_cons, List.forall_mem_append, and_assoc])

theorem parses_items : ∀ (items : List Json) (fuel : ℕ)
    (_ : (Json.tokensOfItems items).length + 1 ≤ fuel),
    Parses (readFlowSequence fuel false) (AllSimple (Json.keysOfItems items))
      (Json.tokensOfItems items ++ [.flowSequenceEnd]) (Json.nodesOfItems items)
  | [], fuel, enough => by
    obtain ⟨fuel, rfl⟩ := Nat.exists_eq_add_of_le' (Nat.le_of_add_left_le enough)
    simp only [Json.tokensOfItems, Json.keysOfItems, Json.nodesOfItems]
    exact (parses_sequenceEnd fuel false).of_iff (by simp [AllSimple])
  | x :: xs, fuel, enough => by
    obtain ⟨t, ts, tokens, starts⟩ := exists_tokens_eq_cons x
    have some := congrArg List.length tokens
    simp only [Json.tokensOfItems, List.length_cons, List.length_append] at enough some ⊢
    obtain ⟨fuel, rfl⟩ := Nat.exists_eq_add_of_le' (show 1 ≤ fuel by omega)
    have item := parses_value false false x fuel (by omega)
    have items := parses_items xs fuel (by omega)
    rw [tokens] at item ⊢
    have all := parses_item false starts item items
    simp only [Json.keysOfItems, Json.nodesOfItems]
    rw [List.cons_append, List.append_assoc]
    exact all.of_iff (by simp only [AllSimple, List.forall_mem_append])

theorem parses_members : ∀ (members : List (String × Json)) (fuel : ℕ)
    (_ : (Json.tokensOfMembers members).length + 1 ≤ fuel),
    Parses (readFlowMapping fuel false) (AllSimple (Json.keysOfMembers members))
      (Json.tokensOfMembers members ++ [.flowMappingEnd]) (Json.nodesOfMembers members)
  | [], fuel, enough => by
    obtain ⟨fuel, rfl⟩ := Nat.exists_eq_add_of_le' (Nat.le_of_add_left_le enough)
    simp only [Json.tokensOfMembers, Json.keysOfMembers, Json.nodesOfMembers]
    exact (parses_mappingEnd fuel false).of_iff (by simp [AllSimple])
  | (key, x) :: xs, fuel, enough => by
    have two := two_le_length_keyTokens key
    obtain ⟨t, ts, tokens, starts⟩ := exists_tokens_eq_cons x
    simp only [Json.tokensOfMembers, List.length_cons, List.length_append] at enough ⊢
    obtain ⟨fuel, rfl⟩ := Nat.exists_eq_add_of_le' (show 2 ≤ fuel by omega)
    have value := parses_value false false x fuel (by omega)
    have members := parses_members xs (fuel + 1) (by omega)
    rw [tokens] at value ⊢
    have all := parses_member false key starts value members
    simp only [Json.keysOfMembers, Json.nodesOfMembers]
    rw [List.cons_append, List.append_assoc, List.append_assoc]
    exact all.of_iff (by simp only [AllSimple, List.forall_mem_cons, List.forall_mem_append, and_assoc])

end

/-- **Reading the tokens of JSON text.** They are read as one document with the node of the object,
if every key of it is found to be one, and else they are refused. -/
theorem Tree.ofTokens_tokens (members : Members) :
    (AllSimple (Json.obj members).keys →
      Tree.ofTokens (Json.obj members).tokens = .ok ⟨some (Json.obj members).node, []⟩) ∧
    (¬ AllSimple (Json.obj members).keys →
      ∃ e, Tree.ofTokens (Json.obj members).tokens = .error e) := by
  have root : Tree.ofTokens (Json.obj members).tokens
      = readRoot true (Json.obj members).tokens [] := by
    cases members <;> rw [Json.tokens] <;> rfl
  have enough : (Json.obj members).tokens.length ≤ 3 * (Json.obj members).tokens.length + 3 := by
    omega
  obtain ⟨ok, fails⟩ := parses_value true false (Json.obj members) _ enough
    ⟨[], [] ++ standardHandles.filter fun h => !Entries.contains h.1 [], [], 0, []⟩ []
  rw [List.append_nil] at ok fails
  dsimp only at ok fails
  rw [root, readRoot, if_neg (by decide)]
  constructor
  · intro simple
    rw [ok simple]
    rfl
  · intro lost
    obtain ⟨e, failed⟩ := fails lost
    rw [failed]
    exact ⟨e, rfl⟩

end Yaml

end SchemaBundle
