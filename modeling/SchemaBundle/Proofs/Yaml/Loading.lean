import SchemaBundle.Proofs.Json.Loadable
import SchemaBundle.Proofs.Yaml.Decoding
import SchemaBundle.Proofs.Yaml.Structure

/-!
# Loading JSON text

The nodes of JSON text are built into the value that was written, with its strings as they are read
again, if it is not nested too deep. `loadJson_laidOut_iff` puts scanner, reader and builder together:
it tells exactly which values are loaded as they are.
-/

namespace SchemaBundle

namespace Json

open Yaml

mutual

/-- The value that is built of the node of a value. -/
def built : Json → Value
  | .null => .null
  | .bool b => .bool b
  | .int n => .number (.int n)
  | .float x => .number (.float x)
  | .str s => .str (reread s)
  | .arr items => .sequence (builtItems items)
  | .obj members => .mapping (builtMembers members)

/-- The values that are built of items. -/
def builtItems : List Json → List Value
  | [] => []
  | x :: xs => built x :: builtItems xs

/-- The entries that are built of members. -/
def builtMembers : List (String × Json) → List (Value × Value)
  | [] => []
  | (key, x) :: xs => (.str (reread key), built x) :: builtMembers xs

end

/-- Values that can be built of their nodes but for nesting: they can be loaded, and their keys stay
as they are. -/
structure Buildable (value : Json) : Prop where
  loadable : value.Loadable
  keys : ∀ key ∈ value.keys, reread key = key

theorem Buildable.items {x : Json} {xs : List Json} (h : (Json.arr (x :: xs)).Buildable) :
    x.Buildable ∧ (Json.arr xs).Buildable := by
  obtain ⟨loadable, keys⟩ := h
  rw [Json.keys, keysOfItems, List.forall_mem_append] at keys
  exact ⟨⟨loadable.1, keys.1⟩, loadable.2, keys.2⟩

theorem Buildable.members {key : String} {x : Json} {xs : Members}
    (h : (Json.obj ((key, x) :: xs)).Buildable) :
    reread key = key ∧ key ∉ Entries.keys xs ∧ x.Buildable ∧ (Json.obj xs).Buildable := by
  obtain ⟨⟨distinct, first, others⟩, keys⟩ := h
  obtain ⟨new, distinct⟩ := List.nodup_cons.1 distinct
  rw [Json.keys, keysOfMembers, List.forall_mem_cons, List.forall_mem_append] at keys
  exact ⟨keys.1, new, ⟨first, keys.2.1⟩, ⟨distinct, others⟩, keys.2.2⟩

end Json

namespace Yaml

/-! ## Builders -/

/-- What a builder does, however many aliases were followed before: it gives a value, or an error if
what it builds is not sound. -/
def Builds {α : Type} (builder : BuildM α) (sound : Prop) (value : α) : Prop :=
  ∀ n, (sound → builder.run n = .ok (value, n)) ∧ (¬ sound → ∃ e, builder.run n = .error e)

namespace Builds

variable {α β : Type} {p q : Prop}

theorem bind {builder : BuildM α} {x : α} {next : α → BuildM β} {y : β} (first : Builds builder p x)
    (second : Builds (next x) q y) : Builds (builder >>= next) (p ∧ q) y := by
  intro n
  obtain ⟨ok, fails⟩ := first n
  obtain ⟨ok', fails'⟩ := second n
  rw [StateT.run_bind]
  by_cases sound : p
  · rw [ok sound]
    exact ⟨fun both => ok' both.2, fun none => fails' fun more => none ⟨sound, more⟩⟩
  · obtain ⟨e, failed⟩ := fails sound
    rw [failed]
    exact ⟨fun both => absurd both.1 sound, fun _ => ⟨e, rfl⟩⟩

theorem pure (x : α) : Builds (Pure.pure x) True x :=
  fun _ => ⟨fun _ => rfl, fun none => absurd trivial none⟩

theorem of_iff {builder : BuildM α} {x : α} (h : Builds builder p x) (iff : p ↔ q) :
    Builds builder q x :=
  propext iff ▸ h

theorem map {builder : BuildM α} {x : α} (h : Builds builder p x) (f : α → β) :
    Builds (builder >>= fun a => Pure.pure (f a)) p (f x) := by
  have all : Builds (builder >>= fun a => Pure.pure (f a)) (p ∧ True) (f x) :=
    h.bind (.pure (f x))
  rwa [and_true] at all

end Builds

variable {tree : Tree} {limit room : ℕ}

theorem builds_scalar {plain : Bool} {text : String} {value : Value}
    (h : Core.scalar none plain text.toList = .ok value) :
    Builds (build tree limit room (.scalar none plain text)) True value := by
  intro n
  refine ⟨fun _ => ?_, fun none => absurd trivial none⟩
  rw [build_scalar, scalarValue, localTag?, h]
  rfl

theorem builds_sequence {items : List Node} {values : List Value} {p : Prop}
    (h : Builds (items.mapM (build tree limit room)) p values) :
    Builds (build tree limit (room + 1) (.sequence none items)) p (.sequence values) := by
  rw [build_sequence]
  exact h.map Value.sequence

theorem builds_mapping {entries : List (Node × Node)} {values : List (Value × Value)} {p : Prop}
    (h : Builds (buildEntries (build tree limit room) entries []) p values) :
    Builds (build tree limit (room + 1) (.mapping none entries)) p (.mapping values) := by
  rw [build_mapping]
  exact h.map Value.mapping

/-- Without room no collection is built. -/
theorem builds_sequence_zero (items : List Node) (value : Value) :
    Builds (build tree limit 0 (.sequence none items)) False value := by
  rw [build_sequence_zero]
  exact fun n => ⟨False.elim, fun _ => ⟨.tooDeep, rfl⟩⟩

theorem builds_mapping_zero (entries : List (Node × Node)) (value : Value) :
    Builds (build tree limit 0 (.mapping none entries)) False value := by
  rw [build_mapping_zero]
  exact fun n => ⟨False.elim, fun _ => ⟨.tooDeep, rfl⟩⟩

/-! ### Building values -/

mutual

/-- The node of a value is built into the value, if there is room for its nesting. -/
theorem builds_value : ∀ (value : Json) (room : ℕ) (_ : value.Buildable),
    Builds (build tree limit room value.node) (value.nesting ≤ room) value.built
  | .null, room, h => by
    simp only [Json.node, Json.nesting, Json.built]
    exact (builds_scalar rfl).of_iff (by simp)
  | .bool true, room, h | .bool false, room, h => by
    simp only [Json.node, Json.nesting, Json.built]
    exact (builds_scalar rfl).of_iff (by simp)
  | .int n, room, h => by
    have inRange : Core.isInRange n = true := h.loadable
    simp only [Json.node, Json.nesting, Json.built, Json.scalarChars]
    refine (builds_scalar ?_).of_iff (by simp)
    rw [String.toList_ofList]
    exact Core.untagged_integerChars inRange
  | .float x, room, h => by
    simp only [Json.node, Json.nesting, Json.built, Json.scalarChars]
    refine (builds_scalar ?_).of_iff (by simp)
    rw [String.toList_ofList]
    exact Core.untagged_chars Json.numberLayout x
  | .str s, room, h => by
    simp only [Json.node, Json.nesting, Json.built]
    refine (builds_scalar ?_).of_iff (by simp)
    rw [Core.scalar, if_neg Bool.false_ne_true, String.ofList_toList]
  | .arr items, 0, h => by
    simp only [Json.node, Json.nesting, Json.built]
    exact (builds_sequence_zero _ _).of_iff (by simp)
  | .arr items, room + 1, h => by
    simp only [Json.node, Json.nesting, Json.built]
    exact (builds_sequence (builds_items items room h)).of_iff (by simp)
  | .obj members, 0, h => by
    simp only [Json.node, Json.nesting, Json.built]
    exact (builds_mapping_zero _ _).of_iff (by simp)
  | .obj members, room + 1, h => by
    simp only [Json.node, Json.nesting, Json.built]
    exact (builds_mapping (builds_members members room [] h nofun)).of_iff (by simp)

theorem builds_items : ∀ (items : List Json) (room : ℕ) (_ : (Json.arr items).Buildable),
    Builds ((Json.nodesOfItems items).mapM (build tree limit room))
      (Json.nestingOfItems items ≤ room) (Json.builtItems items)
  | [], room, h => by
    simp only [Json.nodesOfItems, Json.nestingOfItems, Json.builtItems, List.mapM_nil]
    exact (Builds.pure []).of_iff (by simp)
  | x :: xs, room, h => by
    obtain ⟨first, others⟩ := h.items
    have both : Builds (do
        let y ← build tree limit room x.node
        let ys ← (Json.nodesOfItems xs).mapM (build tree limit room)
        return y :: ys) (x.nesting ≤ room ∧ Json.nestingOfItems xs ≤ room)
        (x.built :: Json.builtItems xs) :=
      (builds_value x room first).bind ((builds_items xs room others).map (List.cons x.built))
    simp only [Json.nodesOfItems, Json.nestingOfItems, Json.builtItems, List.mapM_cons]
    exact both.of_iff (by simp)

theorem builds_members : ∀ (members : List (String × Json)) (room : ℕ)
    (done : List (Value × Value)) (_ : (Json.obj members).Buildable)
    (_ : ∀ key ∈ Entries.keys members, ∀ entry ∈ done, (Value.str key).eqv entry.1 = false),
    Builds (buildEntries (build tree limit room) (Json.nodesOfMembers members) done)
      (Json.nestingOfMembers members ≤ room) (done ++ Json.builtMembers members)
  | [], room, done, h, new => by
    simp only [Json.nodesOfMembers, Json.nestingOfMembers, Json.builtMembers, List.append_nil]
    exact (Builds.pure done).of_iff (by simp)
  | (key, x) :: xs, room, done, h, new => by
    obtain ⟨same, fresh, first, others⟩ := h.members
    have unknown : ¬ (done.any fun entry => (Value.str key).eqv entry.1) = true := by
      rw [Bool.not_eq_true, List.any_eq_false]
      intro entry member
      rw [new key (List.mem_cons_self ..) entry member]
      exact Bool.false_ne_true
    have scalar : Builds (build tree limit room (.scalar none false key)) True (.str key) :=
      builds_scalar (by rw [Core.scalar, if_neg Bool.false_ne_true, String.ofList_toList])
    have rest := builds_members xs room (done ++ [(.str key, x.built)]) others (by
      intro other member entry
      rw [List.mem_append, List.mem_singleton]
      rintro (known | rfl)
      · exact new other (List.mem_cons_of_mem _ member) entry known
      · rw [Value.eqv, beq_eq_false_iff_ne]
        rintro rfl
        exact fresh member)
    rw [List.append_assoc, List.singleton_append] at rest
    have value : Builds (do
        let v ← build tree limit room x.node
        buildEntries (build tree limit room) (Json.nodesOfMembers xs) (done ++ [(.str key, v)]))
        (x.nesting ≤ room ∧ Json.nestingOfMembers xs ≤ room)
        (done ++ (.str key, x.built) :: Json.builtMembers xs) :=
      (builds_value x room first).bind rest
    simp only [Json.nodesOfMembers, Json.nestingOfMembers, Json.builtMembers, same]
    rw [buildEntries]
    refine (scalar.bind (q := x.nesting ≤ room ∧ Json.nestingOfMembers xs ≤ room) ?_).of_iff
      (by simp)
    rw [if_neg unknown]
    exact value

end

end Yaml

namespace Json

open Yaml

/-! ## The value as JSON -/

mutual

theorem toJson_built : ∀ (value : Json) (_ : value.Buildable),
    value.built.toJson = value.mapStrings reread
  | .null, _ | .bool _, _ | .int _, _ | .float _, _ | .str _, _ => by
    simp only [built, Value.toJson, Number.toJson, mapStrings]
  | .arr items, h => by
    simp only [built, Value.toJson, mapStrings, toJson_builtItems items h]
  | .obj members, h => by
    have distinct : Entries.Distinct (mapStringsOfMembers reread members) := by
      rw [Entries.Distinct, keys_mapStringsOfMembers]
      exact h.loadable.1
    simp only [built, Value.toJson, mapStrings, toJson_builtMembers members h,
      Entries.ofList_of_distinct distinct]

theorem toJson_builtItems : ∀ (items : List Json) (_ : (Json.arr items).Buildable),
    Value.itemsToJson (builtItems items) = mapStringsOfItems reread items
  | [], _ => by simp only [builtItems, Value.itemsToJson, mapStringsOfItems]
  | x :: xs, h => by
    obtain ⟨first, others⟩ := h.items
    simp only [builtItems, Value.itemsToJson, mapStringsOfItems, toJson_built x first,
      toJson_builtItems xs others]

theorem toJson_builtMembers : ∀ (members : Members) (_ : (Json.obj members).Buildable),
    Value.entriesToJson (builtMembers members) = mapStringsOfMembers reread members
  | [], _ => by simp only [builtMembers, Value.entriesToJson, mapStringsOfMembers]
  | (key, x) :: xs, h => by
    obtain ⟨same, -, first, others⟩ := h.members
    simp only [builtMembers, Value.entriesToJson, mapStringsOfMembers, Value.keyText, same,
      toJson_built x first, toJson_builtMembers xs others]

end

/-! ## Texts that stay as they are -/

/-- The characters that a reader admits where they are not escaped. -/
def IsAdmitted (text : String) : Prop :=
  ∀ c ∈ text.toList, 32 ≤ c.toNat → isAdmitted c = true

/-- A key that stays as it is: on one line, and of at most 1024 characters in quotation marks. -/
structure IsKey (key : String) : Prop where
  unbroken : ∀ c ∈ key.toList, isRawBreak c = false
  short : (quoted key).length ≤ 1024

/-- A string that stays as it is: without the break that becomes a space, without a space beside
another break, and without a line that looks like a document mark. -/
structure IsSteady (text : String) : Prop where
  unspaced : '\u0085' ∉ text.toList
  apart : text.toList.IsChain Apart
  unmarked : marksLine false text.toList = false

/-- **The values that are loaded as they were written.** -/
structure Reloads (value : Json) : Prop where
  nesting : value.nesting ≤ maxNesting
  admitted : ∀ text ∈ value.keys ++ value.strings, IsAdmitted text
  keys : ∀ key ∈ value.keys, IsKey key
  strings : ∀ text ∈ value.strings, IsSteady text

-- All characters can be enumerated, and the instance that does so would be found first.
instance (text : String) : Decidable (IsAdmitted text) :=
  List.decidableBAll (fun c : Char => 32 ≤ c.toNat → isAdmitted c = true) text.toList

instance (key : String) : Decidable (IsKey key) :=
  haveI := List.decidableBAll (fun c => isRawBreak c = false) key.toList
  decidable_of_iff ((∀ c ∈ key.toList, isRawBreak c = false) ∧ (quoted key).length ≤ 1024)
    ⟨fun h => ⟨h.1, h.2⟩, fun h => ⟨h.unbroken, h.short⟩⟩

instance (text : String) : Decidable (IsSteady text) :=
  decidable_of_iff ('\u0085' ∉ text.toList ∧ text.toList.IsChain Apart ∧
      marksLine false text.toList = false)
    ⟨fun h => ⟨h.1, h.2.1, h.2.2⟩, fun h => ⟨h.unspaced, h.apart, h.unmarked⟩⟩

instance (value : Json) : Decidable value.Reloads :=
  decidable_of_iff (value.nesting ≤ maxNesting ∧
      (∀ text ∈ value.keys ++ value.strings, IsAdmitted text) ∧ (∀ key ∈ value.keys, IsKey key) ∧
      ∀ text ∈ value.strings, IsSteady text)
    ⟨fun h => ⟨h.1, h.2.1, h.2.2.1, h.2.2.2⟩, fun h => ⟨h.nesting, h.admitted, h.keys, h.strings⟩⟩

theorem isSimpleKey_iff {key : String} : isSimpleKey key = true ↔ IsKey key := by
  have length : (Yaml.inner key.toList).length + 2 = (quoted key).length := by
    simp [Yaml.inner, quoted]
  rw [isSimpleKey, length, Bool.and_eq_true, Bool.not_eq_true', List.any_eq_false,
    decide_eq_true_iff]
  simp only [Bool.not_eq_true]
  exact ⟨fun h => ⟨h.1, h.2⟩, fun h => ⟨h.1, h.2⟩⟩

theorem marksLine_of_unbroken {text : List Char} (unbroken : ∀ c ∈ text, isRawBreak c = false) :
    marksLine false text = false := by
  induction text with
  | nil => rfl
  | cons c rest ih =>
    obtain ⟨first, others⟩ := List.forall_mem_cons.1 unbroken
    rw [marksLine, first, ih others]
    rfl

theorem reread_eq_self_iff {text : String} :
    reread text = text ↔ '\u0085' ∉ text.toList ∧ text.toList.IsChain Apart := by
  rw [← refold_eq_self_iff, reread, ← String.toList_inj, String.toList_ofList]

theorem IsKey.reread_eq {key : String} (h : IsKey key) : reread key = key := by
  have apart (a b : Char) (left : isRawBreak a = false) (right : isRawBreak b = false) :
      Apart a b := by simp [Apart, left, right]
  refine reread_eq_self_iff.2 ⟨fun member => ?_, ?_⟩
  · cases h.unbroken _ member
  · refine List.Pairwise.isChain (List.pairwise_of_forall_mem_list fun a first b second => ?_)
    exact apart a b (h.unbroken a first) (h.unbroken b second)

/-- A character is written as itself, or escaped in printable characters. -/
theorem escapedChar_cases (c : Char) : (32 ≤ c.toNat ∧ escapedChar c = [c]) ∨
    (c.toNat < 32 ∨ isAdmitted c = true) ∧ ∀ d ∈ escapedChar c, 32 ≤ d.toNat ∧ d.toNat ≤ 126 := by
  unfold escapedChar
  split_ifs with quote backslash backspace tab newline formFeed carriage control
  · subst quote
    exact .inr (by simp [isAdmitted])
  · subst backslash
    exact .inr (by simp [isAdmitted])
  · subst backspace
    exact .inr (by simp)
  · subst tab
    exact .inr (by simp)
  · subst newline
    exact .inr (by simp)
  · subst formFeed
    exact .inr (by simp)
  · subst carriage
    exact .inr (by simp)
  · have digits : ∀ n < 32, ([hexDigit (n / 16), hexDigit n].all
        fun d => decide (32 ≤ d.toNat) && decide (d.toNat ≤ 126)) = true := by decide
    have both := digits c.toNat control
    simp only [List.all_cons, List.all_nil, Bool.and_true, Bool.and_eq_true,
      decide_eq_true_eq] at both
    exact .inr ⟨.inl control, by simp [both]⟩
  · exact .inl ⟨Nat.le_of_not_lt control, rfl⟩

theorem isAdmitted_of_printable {c : Char} (low : 32 ≤ c.toNat) (high : c.toNat ≤ 126) :
    isAdmitted c = true := by
  simp [isAdmitted, low, high]

theorem forall_mem_quoted_iff {text : String} :
    (∀ c ∈ quoted text, isAdmitted c = true) ↔ IsAdmitted text := by
  have escaped (c : Char) :
      (∀ d ∈ escapedChar c, isAdmitted d = true) ↔ (32 ≤ c.toNat → isAdmitted c = true) := by
    rcases escapedChar_cases c with ⟨visible, same⟩ | ⟨admitted, printable⟩
    · simp [same, visible]
    · refine iff_of_true (fun d member => (printable d member).elim isAdmitted_of_printable) ?_
      exact fun visible => admitted.resolve_left (Nat.not_lt.2 visible)
  have quote : isAdmitted '"' = true := rfl
  simp only [quoted, List.forall_mem_cons, List.forall_mem_append, List.mem_flatMap,
    forall_exists_index, and_imp, quote, true_and, List.not_mem_nil, false_imp_iff,
    forall_const, and_true, IsAdmitted]
  exact ⟨fun all c member => (escaped c).1 fun d => all d c member,
    fun all d c member => (escaped c).2 (all c member) d⟩

theorem notMem_quoted (text : String) : '\r' ∉ quoted text := by
  have escaped (c : Char) : '\r' ∉ escapedChar c := by
    rcases escapedChar_cases c with ⟨visible, same⟩ | ⟨-, printable⟩
    · rw [same, List.mem_singleton]
      rintro rfl
      exact absurd visible (by decide)
    · exact fun member => absurd (printable _ member).1 (by decide)
  simp [quoted, escaped]

end Json

open Yaml

/-! ## Loading -/

section Loading

variable {sp : Json.Spacing} {members : Members} {text : String}

theorem isAdmitted_of_isSpace {c : Char} (space : isSpace c = true) : isAdmitted c = true := by
  simp only [isSpace, Bool.or_eq_true, beq_iff_eq] at space
  rcases space with rfl | rfl <;> rfl

/-- The characters of a written value are admitted if those of its texts are. -/
theorem all_isAdmitted_iff (spacious : Spacious sp) (value : Json) :
    (value.laidOut sp 0 ++ ['\n']).all isAdmitted = true ↔
      ∀ text ∈ value.keys ++ value.strings, Json.IsAdmitted text := by
  have newline : isAdmitted '\n' = true := rfl
  have chars := Json.forall_mem_laidOut_iff (P := fun c => isAdmitted c = true)
    (fun _ => Json.isAdmitted_of_printable)
    (fun depth c member => isAdmitted_of_isSpace (spacious.line depth c member))
    (fun c member => isAdmitted_of_isSpace (spacious.colon c member)) 0 value
  simp only [Json.forall_mem_quoted_iff] at chars
  rw [List.all_append, Bool.and_eq_true, List.all_eq_true, chars, List.forall_mem_append]
  simp [newline]

theorem notMem_laidOut (spacious : Spacious sp) (value : Json) :
    '\r' ∉ value.laidOut sp 0 ++ ['\n'] := by
  have chars := (Json.forall_mem_laidOut_iff (P := fun c => c ≠ '\r') (by
      rintro c low - rfl
      exact absurd low (by decide)) (by
      rintro depth c member rfl
      cases spacious.line depth _ member) (by
      rintro c member rfl
      cases spacious.colon _ member) 0 value).2
    ⟨fun s _ c member same => Json.notMem_quoted s (same ▸ member),
      fun s _ c member same => Json.notMem_quoted s (same ▸ member)⟩
  rw [List.mem_append, not_or]
  exact ⟨fun member => chars _ member rfl, by decide⟩

/-- The node of a value is built within the bounds of a document. -/
theorem Tree.value_node {value : Json} (buildable : value.Buildable) :
    (value.nesting ≤ maxNesting → Tree.value ⟨some value.node, []⟩ = .ok value.built) ∧
    (¬ value.nesting ≤ maxNesting → ∃ e, Tree.value ⟨some value.node, []⟩ = .error e) := by
  obtain ⟨ok, fails⟩ := @builds_value ⟨some value.node, []⟩ (100 * value.node.size) value
    maxNesting buildable 0
  rw [Tree.value]
  dsimp only
  rw [StateT.run'_eq]
  constructor
  · intro room
    rw [ok room]
    rfl
  · intro deep
    obtain ⟨e, failed⟩ := fails deep
    rw [failed]
    exact ⟨e, rfl⟩

/-- **Loading what was written.** The text of an object is loaded as the same object exactly if its
nesting is within the bound and its keys and strings stay as they are. -/
theorem loadJson_laidOut_iff (spacious : Spacious sp) (loadable : (Json.obj members).Loadable)
    (written : text.toList = (Json.obj members).laidOut sp 0 ++ ['\n']) :
    loadJson text.toUTF8.toList = .ok (.obj members) ↔ (Json.obj members).Reloads := by
  have clean : '\r' ∉ text.toList := written ▸ notMem_laidOut spacious (.obj members)
  have admissible : text.toList.all isAdmitted = true ↔ _ :=
    written ▸ all_isAdmitted_iff spacious (.obj members)
  obtain ⟨readOk, readError⟩ := readText_toUTF8 clean
  have normal : text.toList.map normalBreak
      = ((Json.obj members).laidOut sp 0).map normalBreak ++ ['\n'] := by
    rw [written, List.map_append]
    rfl
  obtain ⟨scanOk, scanError⟩ := Token.scan_laidOut spacious members
  obtain ⟨treeOk, treeError⟩ := Tree.ofTokens_tokens members
  rw [loadJson, Yaml.read]
  cases admitted : text.toList.all isAdmitted with
  | false =>
    rw [readError admitted]
    refine iff_of_false nofun fun h => ?_
    rw [admissible.2 h.admitted] at admitted
    cases admitted
  | true =>
    rw [readOk admitted, normal]
    by_cases unmarked : Json.Unmarked (Json.obj members).keys ∧ Json.Unmarked (Json.obj members).strings
    · by_cases simple : AllSimple (Json.obj members).keys
      · have buildable : (Json.obj members).Buildable :=
          ⟨loadable, fun key member => (Json.isSimpleKey_iff.1 (simple key member)).reread_eq⟩
        obtain ⟨buildOk, buildError⟩ := Tree.value_node buildable
        by_cases room : (Json.obj members).nesting ≤ maxNesting
        · simp only [bind, Except.bind, scanOk unmarked, treeOk simple, buildOk room, pure,
            Except.pure, Json.toJson_built _ buildable, Except.ok.injEq,
            Json.mapStrings_eq_self_iff, Json.reread_eq_self_iff]
          constructor
          · intro steady
            refine ⟨room, admissible.1 admitted, fun key member => ?_, fun string member => ?_⟩
            · exact Json.isSimpleKey_iff.1 (simple key member)
            · obtain ⟨unspaced, apart⟩ := steady string member
              exact ⟨unspaced, apart, unmarked.2 string member⟩
          · exact fun h string member => ⟨(h.strings string member).unspaced,
              (h.strings string member).apart⟩
        · obtain ⟨e, failed⟩ := buildError room
          simp only [bind, Except.bind, scanOk unmarked, treeOk simple, failed]
          exact iff_of_false nofun fun h => room h.nesting
      · obtain ⟨e, failed⟩ := treeError simple
        simp only [bind, Except.bind, scanOk unmarked, failed]
        exact iff_of_false nofun fun h =>
          simple fun key member => Json.isSimpleKey_iff.2 (h.keys key member)
    · obtain ⟨e, failed⟩ := scanError unmarked
      simp only [bind, Except.bind, failed]
      refine iff_of_false nofun fun h => unmarked ⟨fun key member => ?_, fun string member => ?_⟩
      · exact Json.marksLine_of_unbroken (h.keys key member).unbroken
      · exact (h.strings string member).unmarked

end Loading

end SchemaBundle
