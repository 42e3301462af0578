import SchemaBundle.Proofs.Yaml.Numbers
import SchemaBundle.Proofs.Yaml.Steps

/-!
# The tokens of JSON text

JSON text in either layout is scanned into the tokens of its value, key by key and item by item
(`Json.tokens`), unless a string in it has a line that looks like a document mark
(`Token.scan_laidOut`).
-/

namespace SchemaBundle

namespace Json

open Yaml

/-! ## Tokens of a value -/

mutual

/-- The tokens of the text of a value. -/
def tokens : Json → List Token
  | .arr [] => [.flowSequenceStart, .flowSequenceEnd]
  | .arr (x :: xs) =>
    .flowSequenceStart :: (tokens x ++ (tokensOfItems xs ++ [.flowSequenceEnd]))
  | .obj [] => [.flowMappingStart, .flowMappingEnd]
  | .obj ((key, x) :: xs) =>
    .flowMappingStart :: (keyTokens key ++ (tokens x ++ (tokensOfMembers xs ++ [.flowMappingEnd])))
  | .str s => [stringToken s]
  | .null => [.scalar true (String.ofList (scalarChars .null))]
  | .bool b => [.scalar true (String.ofList (scalarChars (.bool b)))]
  | .int n => [.scalar true (String.ofList (scalarChars (.int n)))]
  | .float x => [.scalar true (String.ofList (scalarChars (.float x)))]

/-- The tokens of the items after the first. -/
def tokensOfItems : List Json → List Token
  | [] => []
  | x :: xs => .flowEntry :: (tokens x ++ tokensOfItems xs)

/-- The tokens of the members after the first. -/
def tokensOfMembers : List (String × Json) → List Token
  | [] => []
  | (key, x) :: xs => .flowEntry :: (keyTokens key ++ (tokens x ++ tokensOfMembers xs))

end

/-- No line of the texts looks like a document mark. -/
def Unmarked (texts : List String) : Prop :=
  ∀ text ∈ texts, marksLine false text.toList = false

/-! ## Words -/

theorem isWord_of_head {word : List Char} (literal : ∀ c ∈ word, isLiteral c = true)
    {c : Char} (first : word.head? = some c) (letter : c.isAlphanum = true) : IsWord word := by
  obtain ⟨rest, rfl⟩ := List.head?_eq_some_iff.1 first
  exact ⟨literal, c, rest, rfl, .inl letter⟩

/-- A number starts with a digit, perhaps behind a minus. -/
theorem isWord_signed {negative : Bool} {body : List Char} {c : Char}
    (literal : ∀ d ∈ Core.signed negative body, isLiteral d = true)
    (first : body.head? = some c) (digit : c.isDigit = true) :
    IsWord (Core.signed negative body) := by
  obtain ⟨rest, rfl⟩ := List.head?_eq_some_iff.1 first
  cases negative with
  | false => exact isWord_of_head literal first (by simp [Char.isAlphanum, digit])
  | true => exact ⟨literal, '-', c :: rest, rfl, .inr ⟨rfl, c, rest, rfl, digit⟩⟩

theorem isWord_null : IsWord (scalarChars .null) :=
  isWord_of_head (List.all_eq_true.1 rfl) rfl rfl

theorem isWord_bool (b : Bool) : IsWord (scalarChars (.bool b)) := by
  cases b <;> exact isWord_of_head (List.all_eq_true.1 rfl) rfl rfl

theorem isWord_integerChars (n : ℤ) : IsWord (integerChars n) := by
  obtain ⟨c, rest, digits, digit, -⟩ := Core.exists_cons_toDigits n.natAbs
  have text : integerChars n = Core.signed (decide (n < 0)) (c :: rest) := by
    simp [integerChars, Decimal.digitChars, digits, Core.signed]
  have literal (d : Char) (member : d ∈ integerChars n) : isLiteral d = true :=
    isLiteral_integerChars member
  rw [text] at literal ⊢
  exact isWord_signed literal rfl digit

theorem isWord_chars (x : Binary64) : IsWord (x.chars numberLayout) := by
  obtain ⟨digits, k, text, -⟩ := Core.exists_isText numberLayout x.shortest
  obtain ⟨c, d, rest, body, digit, -⟩ := text.start
  have signed : x.chars numberLayout
      = Core.signed x.negative (x.shortest.chars numberLayout) := rfl
  have literal (d : Char) (member : d ∈ x.chars numberLayout) : isLiteral d = true :=
    isLiteral_chars member
  rw [signed] at literal ⊢
  exact isWord_signed literal (by rw [body]; rfl) digit

end Json

namespace Yaml

theorem map_normalBreak_of_notMem {text : List Char} (notMem : '\u0085' ∉ text) :
    text.map normalBreak = text :=
  (List.map_congr_left fun _ member => if_neg (ne_of_mem_of_not_mem member notMem)).trans
    (List.map_id text)

theorem map_normalBreak_of_isLiteral {word : List Char}
    (literal : ∀ c ∈ word, Json.isLiteral c = true) : word.map normalBreak = word :=
  map_normalBreak_of_notMem fun member => nomatch literal _ member

theorem map_normalBreak_quoted (s : String) :
    (Json.quoted s).map normalBreak = '"' :: (inner s.toList ++ ['"']) := by
  simp [Json.quoted, inner]
  rfl

/-! ## Text of a value -/

/-- Between the pieces of a text stand spaces alone. -/
structure Spacious (sp : Json.Spacing) : Prop where
  line : ∀ depth, ∀ c ∈ sp.line depth, isSpace c = true
  colon : ∀ c ∈ sp.colon, isSpace c = true

theorem spacious_none : Spacious .none where
  line _ _ member := absurd member List.not_mem_nil
  colon _ member := absurd member List.not_mem_nil

theorem spacious_lines : Spacious .lines where
  line depth c member := by
    rcases List.mem_cons.1 member with rfl | member
    · rfl
    · rw [List.eq_of_mem_replicate member]
      rfl
  colon c member := by
    rw [List.mem_singleton.1 member]
    rfl

theorem map_normalBreak_of_isSpace {spaces : List Char} (all : ∀ c ∈ spaces, isSpace c = true) :
    spaces.map normalBreak = spaces :=
  map_normalBreak_of_notMem fun member => nomatch all _ member

namespace Plain

variable {rest : List Char}

theorem endsWord_cons {c : Char} (indicator : isFlowIndicator c = true) : EndsWord (c :: rest) :=
  ⟨c, by simp [unspaced_cons (startsToken_of_isFlowIndicator indicator)], indicator⟩

theorem EndsWord.spaced (h : EndsWord rest) {spaces : List Char}
    (all : ∀ c ∈ spaces, isSpace c = true) : EndsWord (spaces ++ rest) := by
  rwa [EndsWord, unspaced_append all]

variable {sp : Json.Spacing} {place : ℕ}

theorem EndsWord.items (h : EndsWord rest) (items : List Json) :
    EndsWord ((Json.laidOutItems sp place items).map normalBreak ++ rest) := by
  cases items with
  | nil => rwa [Json.laidOutItems]
  | cons x xs =>
    rw [Json.laidOutItems]
    exact endsWord_cons rfl

theorem EndsWord.members (h : EndsWord rest) (members : List (String × Json)) :
    EndsWord ((Json.laidOutMembers sp place members).map normalBreak ++ rest) := by
  cases members with
  | nil => rwa [Json.laidOutMembers]
  | cons member members =>
    rw [Json.laidOutMembers]
    exact endsWord_cons rfl

end Plain

namespace Scanner

variable {sp : Json.Spacing} {allowed : Bool} {rest : List Char}

/-- A word of JSON text is scanned into one token. -/
theorem reads_literal {word : List Char} (h : IsWord word) {depth : ℕ} (inside : 0 < depth)
    (ends : Plain.EndsWord rest) : Reads (At depth allowed (word.map normalBreak ++ rest))
      (Json.Unmarked [] ∧ Json.Unmarked []) [.scalar true (String.ofList word)]
      (At depth false rest) := by
  obtain ⟨depth, rfl⟩ := Nat.exists_eq_succ_of_ne_zero inside.ne'
  rw [map_normalBreak_of_isLiteral h.literal]
  exact (reads_word h ends).of_iff (by simp [Json.Unmarked])

/-- A closing bracket on a line of its own. -/
theorem reads_closing (spacious : Spacious sp) (place : ℕ) {depth : ℕ} {c : Char} {t : Token}
    (bracket : c = ']' ∧ t = .flowSequenceEnd ∨ c = '\x7d' ∧ t = .flowMappingEnd) :
    Reads (At (depth + 1) allowed (sp.line place ++ c :: rest)) True [t] (At depth false rest) :=
  (reads_close bracket).of_unspaced (unspaced_append (spacious.line place) _)

/-- A key on a line of its own, and the spaces behind its colon. -/
theorem reads_keyLine (spacious : Spacious sp) (place : ℕ) {depth : ℕ} (key : String) :
    Reads (At (depth + 1) true (sp.line place ++ ((Json.quoted key).map normalBreak
        ++ ':' :: (sp.colon ++ rest))))
      (marksLine false key.toList = false) (keyTokens key) (At (depth + 1) false rest) := by
  have key := (@reads_key depth (sp.colon ++ rest) key).append
    (Reads.nil.of_unspaced (unspaced_append spacious.colon rest))
  rw [List.append_nil, and_true] at key
  rw [map_normalBreak_quoted, List.cons_append, List.append_assoc, List.singleton_append]
  exact key.of_unspaced (unspaced_append (spacious.line place) _)

mutual

/-- A value is scanned into its tokens. -/
theorem reads_value (spacious : Spacious sp) (place : ℕ) (allowed : Bool) {depth : ℕ}
    {rest : List Char} : ∀ (value : Json)
      (_ : value.isObj = true ∨ 0 < depth ∧ Plain.EndsWord rest),
    Reads (At depth allowed ((value.laidOut sp place).map normalBreak ++ rest))
      (Json.Unmarked value.keys ∧ Json.Unmarked value.strings) value.tokens
      (At depth false rest)
  | .null, inside => by
    obtain ⟨positive, ends⟩ := inside.resolve_left nofun
    simpa only [Json.laidOut, Json.keys, Json.strings, Json.tokens] using
      reads_literal Json.isWord_null positive ends
  | .bool b, inside => by
    obtain ⟨positive, ends⟩ := inside.resolve_left nofun
    simpa only [Json.laidOut, Json.keys, Json.strings, Json.tokens] using
      reads_literal (Json.isWord_bool b) positive ends
  | .int n, inside => by
    obtain ⟨positive, ends⟩ := inside.resolve_left nofun
    simpa only [Json.laidOut, Json.scalarChars, Json.keys, Json.strings, Json.tokens] using
      reads_literal (Json.isWord_integerChars n) positive ends
  | .float x, inside => by
    obtain ⟨positive, ends⟩ := inside.resolve_left nofun
    simpa only [Json.laidOut, Json.scalarChars, Json.keys, Json.strings, Json.tokens] using
      reads_literal (Json.isWord_chars x) positive ends
  | .str s, inside => by
    simp only [Json.laidOut, Json.scalarChars, map_normalBreak_quoted, Json.keys, Json.strings,
      Json.tokens, List.cons_append, List.append_assoc, List.nil_append]
    exact (reads_string s).of_iff (by simp [Json.Unmarked])
  | .arr [], inside => by
    have all := (@reads_open depth allowed '[' _ _ (.inl ⟨rfl, rfl⟩)).append
      (@reads_close depth true ']' rest _ (.inl ⟨rfl, rfl⟩))
    simp only [Json.laidOut, Json.keys, Json.strings, Json.tokens]
    exact all.of_iff (by simp [Json.keysOfItems, Json.stringsOfItems, Json.Unmarked])
  | .arr (x :: xs), inside => by
    have closing : Plain.EndsWord (sp.line place ++ ']' :: rest) :=
      (Plain.endsWord_cons rfl).spaced (spacious.line place)
    have close := @reads_closing _ false rest spacious place depth _ _ (.inl ⟨rfl, rfl⟩)
    have items := (reads_items spacious place xs closing).append close
    have value := (reads_value spacious (place + 1) true x
      (.inr ⟨Nat.succ_pos depth, closing.items xs⟩)).append items
    have all := (@reads_open depth allowed '[' _ _ (.inl ⟨rfl, rfl⟩)).append
      (value.of_unspaced (unspaced_append (spacious.line (place + 1)) _))
    simp only [Json.laidOut, List.map_cons, List.map_append, List.cons_append, List.append_assoc,
      map_normalBreak_of_isSpace (spacious.line _), Json.tokens, Json.keys, Json.strings,
      Json.keysOfItems, Json.stringsOfItems]
    refine all.of_iff ?_
    simp only [Json.Unmarked, List.forall_mem_append, true_and, and_true]
    tauto
  | .obj [], inside => by
    have all := (@reads_open depth allowed '\x7b' _ _ (.inr ⟨rfl, rfl⟩)).append
      (@reads_close depth true '\x7d' rest _ (.inr ⟨rfl, rfl⟩))
    simp only [Json.laidOut, Json.keys, Json.strings, Json.tokens]
    exact all.of_iff (by simp [Json.keysOfMembers, Json.stringsOfMembers, Json.Unmarked])
  | .obj ((key, x) :: xs), inside => by
    have closing : Plain.EndsWord (sp.line place ++ '\x7d' :: rest) :=
      (Plain.endsWord_cons rfl).spaced (spacious.line place)
    have close := @reads_closing _ false rest spacious place depth _ _ (.inr ⟨rfl, rfl⟩)
    have members := (reads_members spacious place xs closing).append close
    have value := (reads_value spacious (place + 1) false x
      (.inr ⟨Nat.succ_pos depth, closing.members xs⟩)).append members
    have member := (reads_keyLine spacious (place + 1) key).append value
    have all := (@reads_open depth allowed '\x7b' _ _ (.inr ⟨rfl, rfl⟩)).append member
    simp only [Json.laidOut, List.map_cons, List.map_append, List.cons_append, List.append_assoc,
      map_normalBreak_of_isSpace (spacious.line _), map_normalBreak_of_isSpace spacious.colon,
      Json.tokens, Json.keys, Json.strings, Json.keysOfMembers, Json.stringsOfMembers]
    refine all.of_iff ?_
    simp only [Json.Unmarked, List.forall_mem_cons, List.forall_mem_append, true_and, and_true]
    tauto

theorem reads_items (spacious : Spacious sp) (place : ℕ) {depth : ℕ} {rest : List Char} :
    ∀ (items : List Json) (_ : Plain.EndsWord rest),
    Reads (At (depth + 1) false ((Json.laidOutItems sp place items).map normalBreak ++ rest))
      (Json.Unmarked (Json.keysOfItems items) ∧ Json.Unmarked (Json.stringsOfItems items))
      (Json.tokensOfItems items) (At (depth + 1) false rest)
  | [], ends => by
    simp only [Json.laidOutItems, Json.tokensOfItems, Json.keysOfItems, Json.stringsOfItems]
    exact Reads.nil.of_iff (by simp [Json.Unmarked])
  | x :: xs, ends => by
    have value := (reads_value spacious (place + 1) true x
      (.inr ⟨Nat.succ_pos depth, ends.items xs⟩)).append (reads_items spacious place xs ends)
    have all := (@reads_comma depth false _).append
      (value.of_unspaced (unspaced_append (spacious.line (place + 1)) _))
    simp only [Json.laidOutItems, List.map_cons, List.map_append, List.cons_append,
      List.append_assoc, map_normalBreak_of_isSpace (spacious.line _), Json.tokensOfItems,
      Json.keysOfItems, Json.stringsOfItems]
    refine all.of_iff ?_
    simp only [Json.Unmarked, List.forall_mem_append, true_and]
    tauto

theorem reads_members (spacious : Spacious sp) (place : ℕ) {depth : ℕ} {rest : List Char} :
    ∀ (members : List (String × Json)) (_ : Plain.EndsWord rest),
    Reads (At (depth + 1) false ((Json.laidOutMembers sp place members).map normalBreak ++ rest))
      (Json.Unmarked (Json.keysOfMembers members) ∧ Json.Unmarked (Json.stringsOfMembers members))
      (Json.tokensOfMembers members) (At (depth + 1) false rest)
  | [], ends => by
    simp only [Json.laidOutMembers, Json.tokensOfMembers, Json.keysOfMembers, Json.stringsOfMembers]
    exact Reads.nil.of_iff (by simp [Json.Unmarked])
  | (key, x) :: xs, ends => by
    have value := (reads_value spacious (place + 1) false x
      (.inr ⟨Nat.succ_pos depth, ends.members xs⟩)).append (reads_members spacious place xs ends)
    have all := (@reads_comma depth false _).append
      ((reads_keyLine spacious (place + 1) key).append value)
    simp only [Json.laidOutMembers, List.map_cons, List.map_append, List.cons_append,
      List.append_assoc, map_normalBreak_of_isSpace (spacious.line _),
      map_normalBreak_of_isSpace spacious.colon, Json.tokensOfMembers, Json.keysOfMembers,
      Json.stringsOfMembers]
    refine all.of_iff ?_
    simp only [Json.Unmarked, List.forall_mem_cons, List.forall_mem_append, true_and]
    tauto

end

/-! ## The whole text -/

/-- At the end of the text nothing is found any more. -/
theorem At.run_end {s : Scanner} (h : s.At 0 false ['\n']) (fuel : ℕ) :
    ∃ s', run (fuel + 1) s = .ok s' ∧ s'.found = s.found := by
  obtain ⟨cursor, keyAllowed, move, here, -, at'⟩ := h.exists_moved nofun
  have step := h.step_of_toToken move
  obtain ⟨s', dropped, -, -, found⟩ := at'.exists_dropKey
  have ends : (s.moved cursor keyAllowed).finish
      = .ok { s' with keyAllowed := false, ended := true } := by
    rw [finish, closeBlocks_of_outerIndents at'.outerIndents, dropped]
    rfl
  rw [here] at step
  refine ⟨{ s' with keyAllowed := false, ended := true }, ?_, found⟩
  rw [run, step.trans ends]
  rfl

theorem at_start {c : Char} (rest : List Char) (ne : c ≠ '\ufeff') :
    (start (c :: rest)).At 0 true (c :: rest) := by
  have cursor : Cursor.start (c :: rest) = ⟨c :: rest, (c :: rest).length, 0, 0⟩ := if_neg ne
  refine ⟨by rw [start, cursor], by rw [start, cursor, Cursor.Fits], rfl, rfl, rfl, ?_, rfl,
    fun _ => rfl⟩
  simp [start]

end Scanner

/-- **Scanning JSON text.** The text of an object is scanned into the tokens of the object, if no
line of a string in it looks like a document mark, and else it is refused. -/
theorem Token.scan_laidOut {sp : Json.Spacing} (spacious : Spacious sp) (members : Members) :
    (Json.Unmarked (Json.obj members).keys ∧ Json.Unmarked (Json.obj members).strings →
      Token.scan (((Json.obj members).laidOut sp 0).map normalBreak ++ ['\n'])
        = .ok (Json.obj members).tokens) ∧
    (¬ (Json.Unmarked (Json.obj members).keys ∧ Json.Unmarked (Json.obj members).strings) →
      ∃ e, Token.scan (((Json.obj members).laidOut sp 0).map normalBreak ++ ['\n']) = .error e) := by
  obtain ⟨rest, text⟩ : ∃ rest, ((Json.obj members).laidOut sp 0).map normalBreak ++ ['\n']
      = '\x7b' :: rest := by
    cases members with
    | nil => exact ⟨_, by rw [Json.laidOut]; rfl⟩
    | cons member members => exact ⟨_, by rw [Json.laidOut]; rfl⟩
  have begins := Scanner.at_start rest (by decide : '\x7b' ≠ '\ufeff')
  rw [← text] at begins
  obtain ⟨ok, fails⟩ := Scanner.reads_value spacious 0 true (Json.obj members) (.inl rfl) _ begins
  have left : (Scanner.start (((Json.obj members).laidOut sp 0).map normalBreak
      ++ ['\n'])).cursor.left = (((Json.obj members).laidOut sp 0).map normalBreak
      ++ ['\n']).length := by
    rw [begins.fits, text]
    rfl
  generalize ((Json.obj members).laidOut sp 0).map normalBreak ++ ['\n'] = chars at *
  constructor
  · intro sound
    obtain ⟨s, ⟨n, bound, runs⟩, found, there⟩ := ok sound
    obtain ⟨fuel, enough⟩ := Nat.exists_eq_add_of_le (show n + 1 ≤ chars.length + 2 by omega)
    obtain ⟨s', ends, same⟩ := there.run_end fuel
    have run : Scanner.run (chars.length + 2) (Scanner.start chars) = .ok s' := by
      rw [enough, Nat.add_assoc, Nat.add_comm n, runs, Nat.add_comm, ends]
    have tokens : s'.found.reverse = (Json.obj members).tokens := by
      rw [same, found, show (Scanner.start chars).found = [] from rfl, List.append_nil,
        List.reverse_reverse]
    rw [Token.scan, run, ← tokens]
    rfl
  · intro unsound
    obtain ⟨n, bound, e, runs⟩ := fails unsound
    obtain ⟨fuel, enough⟩ := Nat.exists_eq_add_of_le (show n ≤ chars.length + 2 by omega)
    refine ⟨e, ?_⟩
    rw [Token.scan, enough, Nat.add_comm n, runs]
    rfl

end Yaml

end SchemaBundle
