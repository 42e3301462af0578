import Mathlib.Data.Int.Notation
import Mathlib.Order.Nat
import Mathlib.Tactic.Tauto
import SchemaBundle.Json.Writer

/-!
# The two layouts of JSON text as one

Both layouts put the same pieces one after the other and differ in the spaces between them
(`Spacing`): `Json.laidOut` is the text with given spaces, and the two are cases of it. The texts
that stand in a value, its keys and its strings, are listed here too.
-/

namespace SchemaBundle.Json

/-- The spaces between the pieces of a text. -/
structure Spacing where
  /-- What stands before an item or member, and before the closing bracket, of a depth. -/
  line : ℕ → List Char
  /-- What stands behind the colon of a member. -/
  colon : List Char

/-- No spaces. -/
def Spacing.none : Spacing :=
  ⟨fun _ => [], []⟩

/-- Lines of their own. -/
def Spacing.lines : Spacing :=
  ⟨lineStart, [' ']⟩

@[simp] theorem Spacing.line_none (depth : ℕ) : Spacing.none.line depth = [] := rfl

@[simp] theorem Spacing.colon_none : Spacing.none.colon = [] := rfl

@[simp] theorem Spacing.line_lines (depth : ℕ) : Spacing.lines.line depth = lineStart depth := rfl

@[simp] theorem Spacing.colon_lines : Spacing.lines.colon = [' '] := rfl

mutual

/-- The text of a value at a depth. -/
def laidOut (sp : Spacing) (depth : ℕ) : Json → List Char
  | .arr [] => ['[', ']']
  | .arr (x :: xs) =>
    '[' :: (sp.line (depth + 1) ++ (laidOut sp (depth + 1) x ++ (laidOutItems sp depth xs
      ++ (sp.line depth ++ [']']))))
  | .obj [] => ['\x7b', '\x7d']
  | .obj ((key, x) :: xs) =>
    '\x7b' :: (sp.line (depth + 1) ++ (quoted key ++ ':' :: (sp.colon
      ++ (laidOut sp (depth + 1) x ++ (laidOutMembers sp depth xs
        ++ (sp.line depth ++ ['\x7d']))))))
  | .null => scalarChars .null
  | .bool b => scalarChars (.bool b)
  | .int n => scalarChars (.int n)
  | .float x => scalarChars (.float x)
  | .str s => scalarChars (.str s)

/-- The items after the first, in a list at a depth. -/
def laidOutItems (sp : Spacing) (depth : ℕ) : List Json → List Char
  | [] => []
  | x :: xs => ',' :: (sp.line (depth + 1) ++ (laidOut sp (depth + 1) x ++ laidOutItems sp depth xs))

/-- The members after the first, in an object at a depth. -/
def laidOutMembers (sp : Spacing) (depth : ℕ) : List (String × Json) → List Char
  | [] => []
  | (key, x) :: xs =>
    ',' :: (sp.line (depth + 1) ++ (quoted key ++ ':' :: (sp.colon
      ++ (laidOut sp (depth + 1) x ++ laidOutMembers sp depth xs))))

end

mutual

theorem laidOut_none (depth : ℕ) : ∀ value : Json, laidOut .none depth value = compactChars value
  | .null | .bool _ | .int _ | .float _ | .str _ => by simp only [laidOut, compactChars]
  | .arr [] | .obj [] => by simp only [laidOut, compactChars]
  | .arr (x :: xs) => by
    simp only [laidOut, compactChars, laidOut_none _ x, laidOutItems_none _ xs, Spacing.line_none,
      List.nil_append]
  | .obj ((_, x) :: xs) => by
    simp only [laidOut, compactChars, laidOut_none _ x, laidOutMembers_none _ xs, Spacing.line_none,
      Spacing.colon_none, List.nil_append]

theorem laidOutItems_none (depth : ℕ) : ∀ items : List Json,
    laidOutItems .none depth items = compactItems items
  | [] => by simp only [laidOutItems, compactItems]
  | x :: xs => by
    simp only [laidOutItems, compactItems, laidOut_none _ x, laidOutItems_none _ xs,
      Spacing.line_none, List.nil_append]

theorem laidOutMembers_none (depth : ℕ) : ∀ members : List (String × Json),
    laidOutMembers .none depth members = compactMembers members
  | [] => by simp only [laidOutMembers, compactMembers]
  | (_, x) :: xs => by
    simp only [laidOutMembers, compactMembers, laidOut_none _ x, laidOutMembers_none _ xs,
      Spacing.line_none, Spacing.colon_none, List.nil_append]

end

mutual

theorem laidOut_lines (depth : ℕ) : ∀ value : Json,
    laidOut .lines depth value = prettyChars depth value
  | .null | .bool _ | .int _ | .float _ | .str _ => by simp only [laidOut, prettyChars]
  | .arr [] | .obj [] => by simp only [laidOut, prettyChars]
  | .arr (x :: xs) => by
    simp only [laidOut, prettyChars, laidOut_lines _ x, laidOutItems_lines _ xs, Spacing.line_lines,
      List.append_assoc]
  | .obj ((_, x) :: xs) => by
    simp only [laidOut, prettyChars, laidOut_lines _ x, laidOutMembers_lines _ xs, Spacing.line_lines,
      Spacing.colon_lines, List.append_assoc, List.cons_append, List.nil_append]

theorem laidOutItems_lines (depth : ℕ) : ∀ items : List Json,
    laidOutItems .lines depth items = prettyItems depth items
  | [] => by simp only [laidOutItems, prettyItems]
  | x :: xs => by
    simp only [laidOutItems, prettyItems, laidOut_lines _ x, laidOutItems_lines _ xs, Spacing.line_lines,
      List.append_assoc]

theorem laidOutMembers_lines (depth : ℕ) : ∀ members : List (String × Json),
    laidOutMembers .lines depth members = prettyMembers depth members
  | [] => by simp only [laidOutMembers, prettyMembers]
  | (_, x) :: xs => by
    simp only [laidOutMembers, prettyMembers, laidOut_lines _ x, laidOutMembers_lines _ xs,
      Spacing.line_lines, Spacing.colon_lines, List.append_assoc, List.cons_append, List.nil_append]

end

/-! ## The texts in a value -/

mutual

/-- The names of the members in a value. -/
def keys : Json → List String
  | .arr items => keysOfItems items
  | .obj members => keysOfMembers members
  | .null | .bool _ | .int _ | .float _ | .str _ => []

/-- The names of the members in values. -/
def keysOfItems : List Json → List String
  | [] => []
  | x :: xs => keys x ++ keysOfItems xs

/-- The names of members and of those in them. -/
def keysOfMembers : List (String × Json) → List String
  | [] => []
  | (key, x) :: xs => key :: (keys x ++ keysOfMembers xs)

end

mutual

/-- The strings in a value, its keys apart. -/
def strings : Json → List String
  | .str s => [s]
  | .arr items => stringsOfItems items
  | .obj members => stringsOfMembers members
  | .null | .bool _ | .int _ | .float _ => []

/-- The strings in values. -/
def stringsOfItems : List Json → List String
  | [] => []
  | x :: xs => strings x ++ stringsOfItems xs

/-- The strings in the values of members. -/
def stringsOfMembers : List (String × Json) → List String
  | [] => []
  | (_, x) :: xs => strings x ++ stringsOfMembers xs

end

mutual

/-- A value with each of its strings changed, its keys apart. -/
def mapStrings (f : String → String) : Json → Json
  | .str s => .str (f s)
  | .arr items => .arr (mapStringsOfItems f items)
  | .obj members => .obj (mapStringsOfMembers f members)
  | .null => .null
  | .bool b => .bool b
  | .int n => .int n
  | .float x => .float x

/-- Values with their strings changed. -/
def mapStringsOfItems (f : String → String) : List Json → List Json
  | [] => []
  | x :: xs => mapStrings f x :: mapStringsOfItems f xs

/-- Members with the strings in their values changed. -/
def mapStringsOfMembers (f : String → String) : List (String × Json) → List (String × Json)
  | [] => []
  | (key, x) :: xs => (key, mapStrings f x) :: mapStringsOfMembers f xs

end

theorem keys_mapStringsOfMembers (f : String → String) : ∀ members : Members,
    Entries.keys (mapStringsOfMembers f members) = Entries.keys members
  | [] => rfl
  | (key, x) :: xs => by
    rw [mapStringsOfMembers, Entries.keys_cons, Entries.keys_cons, keys_mapStringsOfMembers f xs]

mutual

theorem mapStrings_eq_self_iff {f : String → String} : ∀ value : Json,
    value.mapStrings f = value ↔ ∀ s ∈ value.strings, f s = s
  | .null | .bool _ | .int _ | .float _ => by simp [mapStrings, strings]
  | .str s => by simp [mapStrings, strings]
  | .arr items => by
    rw [mapStrings, strings, Json.arr.injEq, mapStringsOfItems_eq_self_iff items]
  | .obj members => by
    rw [mapStrings, strings, Json.obj.injEq, mapStringsOfMembers_eq_self_iff members]

theorem mapStringsOfItems_eq_self_iff {f : String → String} : ∀ items : List Json,
    mapStringsOfItems f items = items ↔ ∀ s ∈ stringsOfItems items, f s = s
  | [] => by simp [mapStringsOfItems, stringsOfItems]
  | x :: xs => by
    rw [mapStringsOfItems, stringsOfItems, List.cons.injEq, mapStrings_eq_self_iff x,
      mapStringsOfItems_eq_self_iff xs, List.forall_mem_append]

theorem mapStringsOfMembers_eq_self_iff {f : String → String} :
    ∀ members : List (String × Json),
    mapStringsOfMembers f members = members ↔ ∀ s ∈ stringsOfMembers members, f s = s
  | [] => by simp [mapStringsOfMembers, stringsOfMembers]
  | (key, x) :: xs => by
    rw [mapStringsOfMembers, stringsOfMembers, List.cons.injEq, Prod.mk.injEq, and_iff_right rfl,
      mapStrings_eq_self_iff x, mapStringsOfMembers_eq_self_iff xs, List.forall_mem_append]

end

mutual

/-- How deep lists and objects are nested in a value. -/
def nesting : Json → ℕ
  | .arr items => nestingOfItems items + 1
  | .obj members => nestingOfMembers members + 1
  | .null | .bool _ | .int _ | .float _ | .str _ => 0

/-- How deep lists and objects are nested in values. -/
def nestingOfItems : List Json → ℕ
  | [] => 0
  | x :: xs => max (nesting x) (nestingOfItems xs)

/-- How deep lists and objects are nested in the values of members. -/
def nestingOfMembers : List (String × Json) → ℕ
  | [] => 0
  | (_, x) :: xs => max (nesting x) (nestingOfMembers xs)

end

/-! ## The characters of a text -/

/-- The characters of words without quotation marks. -/
def isLiteral (c : Char) : Bool :=
  c.isAlphanum || c == '-' || c == '+' || c == '.'

theorem isLiteral_of_isDigit {c : Char} (h : c.isDigit) : isLiteral c = true := by
  simp [isLiteral, Char.isAlphanum, h]

theorem isLiteral_digitChars {n : ℕ} {c : Char} (member : c ∈ Decimal.digitChars n) :
    isLiteral c = true :=
  isLiteral_of_isDigit (Nat.isDigit_of_mem_toDigits (by decide) (by decide) member)

theorem isLiteral_integerChars {n : ℤ} {c : Char} (member : c ∈ integerChars n) :
    isLiteral c = true := by
  unfold integerChars at member
  split at member
  · rcases List.mem_cons.1 member with rfl | member
    · rfl
    · exact isLiteral_digitChars member
  · exact isLiteral_digitChars member

theorem isLiteral_exponentChars {layout : Decimal.Layout} {x : ℤ} {c : Char}
    (member : c ∈ Decimal.exponentChars layout x) : isLiteral c = true := by
  unfold Decimal.exponentChars at member
  split at member
  · obtain rfl | rfl | member : c = 'e' ∨ c = '-' ∨ _ := by simpa using member
    · rfl
    · rfl
    · exact isLiteral_digitChars member
  · split at member
    · obtain rfl | rfl | member : c = 'e' ∨ c = '+' ∨ _ := by simpa using member
      · rfl
      · rfl
      · exact isLiteral_digitChars member
    · rcases List.mem_cons.1 member with rfl | member
      · rfl
      · exact isLiteral_digitChars member

theorem isLiteral_decimalChars {layout : Decimal.Layout} {d : Decimal} {c : Char}
    (member : c ∈ d.chars layout) : isLiteral c = true := by
  have digits (c : Char) (member : c ∈ Decimal.digitChars d.digits) : isLiteral c = true :=
    isLiteral_digitChars member
  have point : isLiteral '.' = true := rfl
  have zeros (n : ℕ) (c : Char) (member : c ∈ List.replicate n '0') : isLiteral c = true :=
    List.eq_of_mem_replicate member ▸ rfl
  have exponent (x : ℤ) (c : Char) (member : c ∈ Decimal.exponentChars layout x) :
      isLiteral c = true := isLiteral_exponentChars member
  unfold Decimal.chars at member
  dsimp only at member
  split_ifs at member
  · obtain rfl | rfl | rfl : c = '0' ∨ c = '.' ∨ c = '0' := by simpa using member
    all_goals rfl
  · simp only [List.mem_append, List.mem_cons, List.not_mem_nil, or_false] at member
    rcases member with (member | member) | rfl | rfl
    · exact digits c member
    · exact zeros _ c member
    · rfl
    · rfl
  · rcases List.mem_append.1 member with member | member
    · exact digits c (List.mem_of_mem_take member)
    · rcases List.mem_cons.1 member with rfl | member
      · rfl
      · exact digits c (List.mem_of_mem_drop member)
  · simp only [List.mem_append, List.mem_cons] at member
    rcases member with rfl | rfl | member | member
    · rfl
    · rfl
    · exact zeros _ c member
    · exact digits c member
  · split at member
    · cases member
    · rename_i first same
      rcases List.mem_cons.1 member with rfl | member
      · exact digits c (by simp [same])
      · exact exponent _ c member
    · rename_i first rest _ same
      simp only [List.mem_append, List.mem_cons] at member
      rcases member with rfl | rfl | member | member
      · exact digits c (by simp [same])
      · rfl
      · exact digits c (by simp [same, member])
      · exact exponent _ c member

theorem isLiteral_chars {layout : Decimal.Layout} {x : Binary64} {c : Char}
    (member : c ∈ x.chars layout) : isLiteral c = true := by
  unfold Binary64.chars at member
  split at member
  · rcases List.mem_cons.1 member with rfl | member
    · rfl
    · exact isLiteral_decimalChars member
  · exact isLiteral_decimalChars member

theorem printable_of_isLiteral {c : Char} (h : isLiteral c = true) :
    32 ≤ c.toNat ∧ c.toNat ≤ 126 := by
  have bounds {low high : Char} (above : low.val ≤ c.val) (below : c.val ≤ high.val)
      (least : 32 ≤ low.toNat) (most : high.toNat ≤ 126) : 32 ≤ c.toNat ∧ c.toNat ≤ 126 :=
    ⟨least.trans (UInt32.le_iff_toNat_le.1 above), (UInt32.le_iff_toNat_le.1 below).trans most⟩
  -- the classes of characters by their bounds
  change (((decide ('A'.val ≤ c.val ∧ c.val ≤ 'Z'.val)
      || decide ('a'.val ≤ c.val) && decide (c.val ≤ 'z'.val))
    || decide ('0'.val ≤ c.val) && decide (c.val ≤ '9'.val))
    || c == '-' || c == '+' || c == '.') = true at h
  simp only [Bool.or_eq_true, Bool.and_eq_true, decide_eq_true_eq, beq_iff_eq] at h
  obtain ((((⟨above, below⟩ | ⟨above, below⟩) | ⟨above, below⟩) | rfl) | rfl) | rfl := h
  · exact bounds above below (by decide) (by decide)
  · exact bounds above below (by decide) (by decide)
  · exact bounds above below (by decide) (by decide)
  all_goals decide

section Characters

variable {P : Char → Prop} {sp : Spacing}

mutual

/-- The characters of a text have a property that all printable characters have if the spaces and
the texts in quotation marks have it. -/
theorem forall_mem_laidOut_iff (printable : ∀ c, 32 ≤ c.toNat → c.toNat ≤ 126 → P c)
    (line : ∀ depth, ∀ c ∈ sp.line depth, P c) (colon : ∀ c ∈ sp.colon, P c) (depth : ℕ) :
    ∀ value : Json, (∀ c ∈ laidOut sp depth value, P c) ↔
      (∀ s ∈ value.keys, ∀ c ∈ quoted s, P c) ∧ ∀ s ∈ value.strings, ∀ c ∈ quoted s, P c
  | .null | .bool true | .bool false => by
    simp [laidOut, scalarChars, keys, strings, printable]
  | .int n => by
    have literal (c : Char) (member : c ∈ integerChars n) : P c :=
      (printable_of_isLiteral (isLiteral_integerChars member)).elim (printable c)
    simpa [laidOut, scalarChars, keys, strings] using literal
  | .float x => by
    have literal (c : Char) (member : c ∈ x.chars numberLayout) : P c :=
      (printable_of_isLiteral (isLiteral_chars member)).elim (printable c)
    simpa [laidOut, scalarChars, keys, strings] using literal
  | .str _ => by simp [laidOut, scalarChars, keys, strings]
  | .arr [] | .obj [] => by
    simp [laidOut, keys, strings, keysOfItems, keysOfMembers, stringsOfItems, stringsOfMembers,
      printable]
  | .arr (x :: xs) => by
    have brackets : P '[' ∧ P ']' := ⟨printable _ (by decide) (by decide),
      printable _ (by decide) (by decide)⟩
    simp only [laidOut, keys, strings, keysOfItems, stringsOfItems, List.forall_mem_cons,
      List.forall_mem_append, forall_mem_laidOut_iff printable line colon _ x,
      forall_mem_laidOutItems_iff printable line colon _ xs, brackets, List.not_mem_nil,
      false_imp_iff, forall_const, and_true, true_and, iff_true_intro (line _)]
    tauto
  | .obj ((_, x) :: xs) => by
    have brackets : P '\x7b' ∧ P '\x7d' := ⟨printable _ (by decide) (by decide),
      printable _ (by decide) (by decide)⟩
    have mark : P ':' := printable _ (by decide) (by decide)
    simp only [laidOut, keys, strings, keysOfMembers, stringsOfMembers, List.forall_mem_cons,
      List.forall_mem_append, forall_mem_laidOut_iff printable line colon _ x,
      forall_mem_laidOutMembers_iff printable line colon _ xs, brackets, mark, List.not_mem_nil,
      false_imp_iff, forall_const, and_true, true_and, iff_true_intro (line _),
      iff_true_intro colon]
    tauto

theorem forall_mem_laidOutItems_iff (printable : ∀ c, 32 ≤ c.toNat → c.toNat ≤ 126 → P c)
    (line : ∀ depth, ∀ c ∈ sp.line depth, P c) (colon : ∀ c ∈ sp.colon, P c) (depth : ℕ) :
    ∀ items : List Json, (∀ c ∈ laidOutItems sp depth items, P c) ↔
      (∀ s ∈ keysOfItems items, ∀ c ∈ quoted s, P c) ∧
        ∀ s ∈ stringsOfItems items, ∀ c ∈ quoted s, P c
  | [] => by simp [laidOutItems, keysOfItems, stringsOfItems]
  | x :: xs => by
    have comma : P ',' := printable _ (by decide) (by decide)
    simp only [laidOutItems, keysOfItems, stringsOfItems, List.forall_mem_cons,
      List.forall_mem_append, forall_mem_laidOut_iff printable line colon _ x,
      forall_mem_laidOutItems_iff printable line colon _ xs, comma, true_and,
      iff_true_intro (line _)]
    tauto

theorem forall_mem_laidOutMembers_iff (printable : ∀ c, 32 ≤ c.toNat → c.toNat ≤ 126 → P c)
    (line : ∀ depth, ∀ c ∈ sp.line depth, P c) (colon : ∀ c ∈ sp.colon, P c) (depth : ℕ) :
    ∀ members : List (String × Json), (∀ c ∈ laidOutMembers sp depth members, P c) ↔
      (∀ s ∈ keysOfMembers members, ∀ c ∈ quoted s, P c) ∧
        ∀ s ∈ stringsOfMembers members, ∀ c ∈ quoted s, P c
  | [] => by simp [laidOutMembers, keysOfMembers, stringsOfMembers]
  | (_, x) :: xs => by
    have marks : P ',' ∧ P ':' := ⟨printable _ (by decide) (by decide),
      printable _ (by decide) (by decide)⟩
    simp only [laidOutMembers, keysOfMembers, stringsOfMembers, List.forall_mem_cons,
      List.forall_mem_append, forall_mem_laidOut_iff printable line colon _ x,
      forall_mem_laidOutMembers_iff printable line colon _ xs, marks, true_and,
      iff_true_intro (line _), iff_true_intro colon]
    tauto

end

end Characters

end SchemaBundle.Json
