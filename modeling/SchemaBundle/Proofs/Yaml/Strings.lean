import Mathlib.Data.Char
import Mathlib.Data.List.Basic
import Mathlib.Order.Basic
import SchemaBundle.Json.Writer
import SchemaBundle.Yaml.Scalar.Quoted

/-!
# What is read of a string that was written

A string is written between quotation marks with few escapes. The line breaks of Unicode stand there
as they are, and a reader of quoted scalars folds them with the spaces around (`refold`); a line that
looks like a document mark is an error (`marksLine`). `Quoted.read_written` says that this is all
that happens to a string. `refold_eq_self_iff` tells which strings stay as they were.
-/

namespace SchemaBundle.Yaml

/-! ## Characters -/

/-- The line breaks that are not escaped in a string. -/
def isRawBreak (c : Char) : Bool :=
  c == '\u0085' || c == '\u2028' || c == '\u2029'

/-- What separates words in a string that was written. -/
def isSoft (c : Char) : Bool :=
  c == ' ' || isRawBreak c

/-- A line break as it is when the breaks of a text are normalized. -/
def normalBreak (c : Char) : Char :=
  if c = '\u0085' then '\n' else c

/-- The characters of a string between the quotation marks, with normal line breaks. -/
def inner (s : List Char) : List Char :=
  (s.flatMap Json.escapedChar).map normalBreak

/-- Whether a line that starts so is a document mark: three equal characters before a gap. -/
def opensMark : List Char → Bool
  | a :: b :: c :: d :: _ => (a == '-' || a == '.') && b == a && c == a && isSoft d
  | _ => false

/-- Whether a line of a string looks like a document mark. A line starts behind each break, and here
if `fresh`. -/
def marksLine (fresh : Bool) : List Char → Bool
  | [] => false
  | c :: rest => (fresh && opensMark (c :: rest)) || marksLine (isRawBreak c) rest

/-- A gap with one more character. -/
def Gap.push (gap : Gap) (c : Char) : Gap :=
  if isBlank c then gap.addBlank c else gap.addBreak c

/-- What is read of a string after a gap. -/
def refold (gap : Gap) : List Char → List Char
  | [] => gap.fold
  | c :: rest =>
    if isSoft c then refold (gap.push (normalBreak c)) rest
    else gap.fold ++ c :: refold .empty rest

@[simp] theorem inner_nil : inner [] = [] := rfl

theorem inner_cons (c : Char) (rest : List Char) :
    inner (c :: rest) = (Json.escapedChar c).map normalBreak ++ inner rest := by
  simp [inner]

theorem inner_append (s t : List Char) : inner (s ++ t) = inner s ++ inner t := by
  simp [inner]

theorem isRawBreak_iff {c : Char} :
    isRawBreak c = true ↔ c = '\u0085' ∨ c = '\u2028' ∨ c = '\u2029' := by
  simp [isRawBreak, or_assoc]

theorem isSoft_iff {c : Char} : isSoft c = true ↔ c = ' ' ∨ isRawBreak c = true := by
  simp [isSoft]

/-- What separates words is not escaped. -/
theorem escapedChar_of_isSoft {c : Char} (h : isSoft c = true) :
    (Json.escapedChar c).map normalBreak = [normalBreak c] := by
  rw [isSoft_iff, isRawBreak_iff] at h
  rcases h with rfl | rfl | rfl | rfl <;> decide

theorem isGap_normalBreak {c : Char} (h : isSoft c = true) : isGap (normalBreak c) = true := by
  rw [isSoft_iff, isRawBreak_iff] at h
  rcases h with rfl | rfl | rfl | rfl <;> decide

/-- How a character that separates no words is written. -/
inductive Solid (c : Char) : List Char → Prop
  | raw (quote : c ≠ '"') (backslash : c ≠ '\\') (gap : isGap c = false) : Solid c [c]
  | short {d : Char} (unbroken : isBreak d = false) (escape : Quoted.escape? d = some (.char c)) :
    Solid c ['\\', d]
  | code {a b : Char} (code : ∀ rest, Quoted.codePoint? 4 ('0' :: '0' :: a :: b :: rest) = some c) :
    Solid c ['\\', 'u', '0', '0', a, b]

theorem codePoint?_control : ∀ n < 32, ∀ rest : List Char,
    Quoted.codePoint? 4 ('0' :: '0' :: Json.hexDigit (n / 16) :: Json.hexDigit n :: rest)
      = some (Char.ofNat n) := by
  have digits : ∀ n < 32, [Json.hexDigit 0, Json.hexDigit 0, Json.hexDigit (n / 16),
      Json.hexDigit n].mapM Quoted.hexValue? = some [0, 0, n / 16, n % 16] := by decide
  have codes : ∀ n < 32, charOf? 0 ([0, 0, n / 16, n % 16].foldl (fun n d => 16 * n + d) 0)
      = some (Char.ofNat n) := by decide
  intro n small rest
  have here := digits n small
  simp only [Quoted.codePoint?, List.take_succ_cons, List.take_zero, List.length_cons,
    List.length_nil, lt_self_iff_false, if_false]
  rw [show ['0', '0', Json.hexDigit (n / 16), Json.hexDigit n]
    = [Json.hexDigit 0, Json.hexDigit 0, Json.hexDigit (n / 16), Json.hexDigit n] from rfl, here]
  exact codes n small

theorem solid_escapedChar {c : Char} (h : isSoft c = false) :
    Solid c ((Json.escapedChar c).map normalBreak) := by
  have space : c ≠ ' ' := fun same => by simp [same, isSoft] at h
  have next : c ≠ '\u0085' := fun same => by simp [same, isSoft, isRawBreak] at h
  have line : c ≠ '\u2028' := fun same => by simp [same, isSoft, isRawBreak] at h
  have paragraph : c ≠ '\u2029' := fun same => by simp [same, isSoft, isRawBreak] at h
  unfold Json.escapedChar
  split_ifs with quote backslash backspace tab newline formFeed carriage control
  · subst quote
    exact .short rfl rfl
  · subst backslash
    exact .short rfl rfl
  · subst backspace
    exact .short rfl rfl
  · subst tab
    exact .short rfl rfl
  · subst newline
    exact .short rfl rfl
  · subst formFeed
    exact .short rfl rfl
  · subst carriage
    exact .short rfl rfl
  · have digit : ∀ n < 32, normalBreak (Json.hexDigit (n / 16)) = Json.hexDigit (n / 16) ∧
        normalBreak (Json.hexDigit n) = Json.hexDigit n := by decide
    obtain ⟨first, second⟩ := digit c.toNat control
    have same : (['\\', 'u', '0', '0', Json.hexDigit (c.toNat / 16), Json.hexDigit c.toNat]).map
        normalBreak = ['\\', 'u', '0', '0', Json.hexDigit (c.toNat / 16),
          Json.hexDigit c.toNat] := by
      simp only [List.map_cons, List.map_nil, first, second]
      rfl
    rw [same]
    refine .code fun rest => ?_
    rw [codePoint?_control c.toNat control, Char.ofNat_toNat]
  · have same : [c].map normalBreak = [c] := by simp [normalBreak, next]
    rw [same]
    exact .raw quote backslash (by simp [isGap, isBlank, isBreak, *])

/-- The first character of a string as it is written, and whether it is a gap. -/
theorem exists_inner_cons (c : Char) (rest after : List Char) : ∃ d more,
    inner (c :: rest) ++ after = d :: more ∧ isGap d = isSoft c ∧
      (isSoft c = false → d ≠ c → d = '\\') ∧ (d ≠ '\\' → more = inner rest ++ after) := by
  rw [inner_cons, List.append_assoc]
  cases soft : isSoft c with
  | true =>
    rw [escapedChar_of_isSoft soft]
    exact ⟨_, _, rfl, isGap_normalBreak soft, nofun, fun _ => rfl⟩
  | false =>
    have solid := solid_escapedChar soft
    generalize (Json.escapedChar c).map normalBreak = chars at solid
    cases solid with
    | raw _ _ gap => exact ⟨_, _, rfl, gap, fun _ ne => absurd rfl ne, fun _ => rfl⟩
    | short => exact ⟨_, _, rfl, rfl, fun _ _ => rfl, fun ne => absurd rfl ne⟩
    | code => exact ⟨_, _, rfl, rfl, fun _ _ => rfl, fun ne => absurd rfl ne⟩

theorem length_le_inner (s : List Char) : s.length ≤ (inner s).length := by
  induction s with
  | nil => exact Nat.le_refl 0
  | cons c rest ih =>
    obtain ⟨d, more, written, -⟩ := exists_inner_cons c [] []
    rw [List.append_nil, inner_cons, inner_nil, List.append_nil] at written
    rw [inner_cons, written, List.length_append, List.length_cons, List.length_cons]
    omega

/-! ## Cursors -/

namespace Cursor

/-- The number of characters left is right. -/
def Fits (c : Cursor) : Prop :=
  c.left = c.rest.length

theorem Fits.skip {c : Cursor} (h : c.Fits) (n : ℕ) : (c.skip n).Fits := by
  rw [Fits, Cursor.skip, List.length_drop, ← h]

theorem skip_skip (c : Cursor) (m n : ℕ) : (c.skip m).skip n = c.skip (m + n) := by
  simp [skip, Nat.sub_sub, Nat.add_assoc]

theorem rest_skip_of_append {c : Cursor} {front back : List Char} (h : c.rest = front ++ back) :
    (c.skip front.length).rest = back := by
  rw [skip, h, List.drop_left]

end Cursor

namespace Quoted

/-! ## Runs of solid characters -/

theorem doubleRun_solid {c : Char} {chars more : List Char} (solid : Solid c chars)
    {cursor : Cursor} (here : cursor.rest = chars ++ more) (fuel : ℕ) (text : List Char) :
    doubleRun (fuel + 1) text cursor = doubleRun fuel (c :: text) (cursor.skip chars.length) := by
  cases solid with
  | raw quote backslash gap =>
    rw [doubleRun, here]
    split
    · rename_i same
      exact absurd (List.cons.inj same).1 quote
    · rename_i same
      exact absurd (List.cons.inj same).1 backslash
    · rename_i same
      exact absurd (List.cons.inj same).1 backslash
    · rename_i same
      obtain ⟨rfl, -⟩ := List.cons.inj same
      rw [gap, if_neg Bool.false_ne_true]
      rfl
    · rename_i same
      cases same
  | short unbroken escape =>
    rw [doubleRun]
    simp only [here, List.cons_append, List.nil_append, unbroken, escape, Bool.false_eq_true,
      if_false, List.length_cons, List.length_nil]
  | code code =>
    rw [doubleRun]
    simp only [here, List.cons_append, List.nil_append, code, isBreak, escape?,
      List.length_cons, List.length_nil]
    rfl

variable {s after : List Char}

/-- What a run does not pass: the closing quotation mark, or a character between words. -/
theorem doubleRun_stops (stops : ∀ c ∈ s.head?, isSoft c = true) {cursor : Cursor}
    (here : cursor.rest = inner s ++ '"' :: after) (fuel : ℕ) (text : List Char) :
    doubleRun (fuel + 1) text cursor = .ok ⟨text, cursor, false⟩ := by
  cases s with
  | nil =>
    rw [doubleRun]
    simp only [here, inner_nil, List.nil_append]
  | cons c rest =>
    have soft := stops c rfl
    have gap := isGap_normalBreak soft
    rw [inner_cons, escapedChar_of_isSoft soft] at here
    rw [doubleRun, here]
    split
    · rfl
    · rename_i same
      obtain ⟨same, -⟩ := List.cons.inj same
      rw [same] at gap
      cases gap
    · rename_i same
      obtain ⟨same, -⟩ := List.cons.inj same
      rw [same] at gap
      cases gap
    · rename_i same
      obtain ⟨same, -⟩ := List.cons.inj same
      rw [← same, gap, if_pos rfl]
    · rfl

/-- A run takes the solid characters and stops. -/
theorem doubleRun_inner {front : List Char} (solid : ∀ c ∈ front, isSoft c = false)
    (stops : ∀ c ∈ s.head?, isSoft c = true) {cursor : Cursor}
    (here : cursor.rest = inner (front ++ s) ++ '"' :: after) {fuel : ℕ}
    (enough : front.length < fuel) (text : List Char) :
    doubleRun fuel text cursor
      = .ok ⟨front.reverse ++ text, cursor.skip (inner front).length, false⟩ := by
  induction front generalizing cursor fuel text with
  | nil =>
    obtain ⟨fuel, rfl⟩ := Nat.exists_eq_succ_of_ne_zero enough.ne'
    exact doubleRun_stops stops here fuel text
  | cons c front ih =>
    obtain ⟨fuel, rfl⟩ := Nat.exists_eq_succ_of_ne_zero (Nat.ne_of_gt (Nat.zero_lt_of_lt enough))
    obtain ⟨first, others⟩ := List.forall_mem_cons.1 solid
    rw [List.cons_append, inner_cons, List.append_assoc] at here
    rw [doubleRun_solid (solid_escapedChar first) here,
      ih others (Cursor.rest_skip_of_append here) (Nat.lt_of_succ_lt_succ enough),
      Cursor.skip_skip, inner_cons, List.length_append, List.reverse_cons, List.append_assoc]
    rfl

end Quoted

/-! ## Gaps -/

/-- A gap takes spaces and breaks up to the next character. The column behind it is the first one
exactly behind a break. -/
theorem Gap.readFrom_append {gaps rest : List Char}
    (all : ∀ c ∈ gaps, isGap c = true ∧ c ≠ '\t') (stops : ∀ c ∈ rest.head?, isGap c = false)
    (least left line column : ℕ) (gap : Gap) :
    ∃ column', readFrom least (gaps ++ rest) left line column gap
        = .ok (gaps.foldl push gap, ⟨rest, left - gaps.length, line + gaps.countP isBreak, column'⟩) ∧
      (gaps = [] → column' = column) ∧ ∀ c ∈ gaps.getLast?, column' = 0 ↔ isBreak c = true := by
  induction gaps generalizing left line column gap with
  | nil =>
    refine ⟨column, ?_, fun _ => rfl, by simp⟩
    cases rest with
    | nil => rfl
    | cons d rest =>
      have outside := stops d rfl
      simp only [isGap, Bool.or_eq_false_iff] at outside
      rw [List.nil_append, readFrom, outside.1, outside.2]
      rfl
  | cons c gaps ih =>
    obtain ⟨⟨here, noTab⟩, others⟩ := List.forall_mem_cons.1 all
    -- one step goes on behind the character, on its line or on the next one
    obtain ⟨line', column₁, step, lines, zero⟩ : ∃ line' column₁,
        readFrom least (c :: (gaps ++ rest)) left line column gap
          = readFrom least (gaps ++ rest) (left - 1) line' column₁ (gap.push c) ∧
        line' = line + (if isBreak c = true then 1 else 0) ∧ (column₁ = 0 ↔ isBreak c = true) := by
      rw [readFrom, push]
      cases blank : isBlank c with
      | true =>
        have inLine : isBreak c = false := by
          simp only [isBlank, Bool.or_eq_true, beq_iff_eq] at blank
          rcases blank with rfl | rfl <;> rfl
        refine ⟨line, column + 1, ?_, by simp [inLine], by simp [inLine]⟩
        simp [noTab]
      | false =>
        have ends : isBreak c = true := by simpa [isGap, blank] using here
        refine ⟨line + 1, 0, ?_, by simp [ends], by simp [ends]⟩
        simp [ends]
    obtain ⟨column', read, same, last⟩ := ih others (left - 1) line' column₁ (gap.push c)
    refine ⟨column', ?_, by simp, ?_⟩
    · rw [List.cons_append, step, read, List.foldl_cons, List.length_cons, List.countP_cons, lines,
        Nat.sub_sub, Nat.add_comm 1, Nat.add_assoc line, Nat.add_comm (List.countP ..)]
    · intro d member
      cases gaps with
      | nil =>
        obtain rfl : c = d := Option.some.inj member
        rw [same rfl, zero]
      | cons c' more => exact last d (by rwa [List.getLast?_cons_cons] at member)

theorem isBreak_normalBreak {c : Char} (soft : isSoft c = true) :
    isBreak (normalBreak c) = isRawBreak c := by
  rw [isSoft_iff, isRawBreak_iff] at soft
  rcases soft with rfl | rfl | rfl | rfl <;> decide

/-- What separates words in a string stands there as it is. -/
theorem inner_of_isSoft {gaps : List Char} (soft : ∀ c ∈ gaps, isSoft c = true) :
    inner gaps = gaps.map normalBreak := by
  induction gaps with
  | nil => rfl
  | cons c gaps ih =>
    obtain ⟨first, others⟩ := List.forall_mem_cons.1 soft
    rw [inner_cons, escapedChar_of_isSoft first, ih others, List.map_cons, List.singleton_append]

/-- The gap between two words of a string. -/
theorem Gap.readFrom_inner {gaps s after : List Char} (soft : ∀ c ∈ gaps, isSoft c = true)
    (stops : ∀ c ∈ s.head?, isSoft c = false) (left line column : ℕ) (gap : Gap) :
    ∃ column', readFrom 0 (inner (gaps ++ s) ++ '"' :: after) left line column gap
        = .ok ((gaps.map normalBreak).foldl push gap, ⟨inner s ++ '"' :: after, left - gaps.length,
            line + gaps.countP isRawBreak, column'⟩) ∧
      ∀ c ∈ gaps.getLast?, column' = 0 ↔ isRawBreak c = true := by
  have all : ∀ c ∈ gaps.map normalBreak, isGap c = true ∧ c ≠ '\t' := by
    intro c member
    obtain ⟨d, isGap', rfl⟩ := List.mem_map.1 member
    refine ⟨isGap_normalBreak (soft d isGap'), fun same => ?_⟩
    have separates := soft d isGap'
    rw [isSoft_iff, isRawBreak_iff] at separates
    rcases separates with rfl | rfl | rfl | rfl <;> revert same <;> decide
  have stops' : ∀ c ∈ (inner s ++ '"' :: after).head?, isGap c = false := by
    intro c member
    cases s with
    | nil =>
      obtain rfl : '"' = c := Option.some.inj member
      rfl
    | cons d rest =>
      obtain ⟨e, more, here, gap, -⟩ := exists_inner_cons d rest ('"' :: after)
      rw [here] at member
      obtain rfl : e = c := Option.some.inj member
      rw [gap, stops d rfl]
  obtain ⟨column', read, -, last⟩ := readFrom_append all stops' 0 left line column gap
  have lines : (gaps.map normalBreak).countP isBreak = gaps.countP isRawBreak := by
    rw [List.countP_map]
    exact List.countP_congr fun c member => by simp [isBreak_normalBreak (soft c member)]
  refine ⟨column', ?_, fun c member => ?_⟩
  · rw [inner_append, inner_of_isSoft soft, List.append_assoc, read, List.length_map, lines]
  · rw [← isBreak_normalBreak (soft c (List.mem_of_getLast? member))]
    refine last (normalBreak c) ?_
    rw [List.getLast?_map, member]
    rfl

/-! ## Whole strings -/

/-- A list is cut where a condition first fails. -/
theorem exists_cut (p : Char → Bool) (s : List Char) : ∃ front back, s = front ++ back ∧
    (∀ c ∈ front, p c = true) ∧ ∀ c ∈ back.head?, p c = false := by
  induction s with
  | nil => exact ⟨[], [], rfl, by simp, by simp⟩
  | cons c rest ih =>
    cases h : p c with
    | false => exact ⟨[], c :: rest, rfl, by simp, by simp [h]⟩
    | true =>
      obtain ⟨front, back, rfl, all, stops⟩ := ih
      exact ⟨c :: front, back, rfl, List.forall_mem_cons.2 ⟨h, all⟩, stops⟩

/-- A mark is written as it is, and written so by nothing else. -/
theorem eq_cons_of_inner {m : Char} (mark : m = '-' ∨ m = '.') {s after more : List Char}
    (h : inner s ++ '"' :: after = m :: more) :
    ∃ rest, s = m :: rest ∧ more = inner rest ++ '"' :: after := by
  cases s with
  | nil =>
    obtain ⟨same, -⟩ := List.cons.inj h
    rcases mark with rfl | rfl <;> cases same
  | cons c rest =>
    obtain ⟨d, more', here, gap, escaped, behind⟩ := exists_inner_cons c rest ('"' :: after)
    obtain ⟨rfl, rfl⟩ := List.cons.inj (here.symm.trans h)
    have plain : d ≠ '\\' ∧ isGap d = false := by
      rcases mark with rfl | rfl <;> decide
    rw [plain.2] at gap
    have same : d = c := by
      by_contra ne
      exact plain.1 (escaped gap.symm ne)
    exact ⟨rest, by rw [same], behind plain.1⟩

theorem inner_cons_mark {m : Char} (mark : m = '-' ∨ m = '.') (rest : List Char) :
    inner (m :: rest) = m :: inner rest := by
  rcases mark with rfl | rfl <;> rfl

theorem isDocumentMark_inner {m : Char} (mark : m = '-' ∨ m = '.') (s after : List Char) :
    isDocumentMark m (inner s ++ '"' :: after) = true ↔
      ∃ d rest, s = m :: m :: m :: d :: rest ∧ isSoft d = true := by
  constructor
  · intro h
    unfold isDocumentMark at h
    split at h
    · rename_i a b c rest here
      simp only [Bool.and_eq_true, beq_iff_eq] at h
      obtain ⟨⟨⟨rfl, rfl⟩, rfl⟩, gap⟩ := h
      obtain ⟨s₁, rfl, second⟩ := eq_cons_of_inner mark here
      obtain ⟨s₂, rfl, third⟩ := eq_cons_of_inner mark second.symm
      obtain ⟨s₃, rfl, behind⟩ := eq_cons_of_inner mark third.symm
      rw [behind] at gap
      cases s₃ with
      | nil => cases gap
      | cons d rest =>
        obtain ⟨e, more, written, isGap, -⟩ := exists_inner_cons d rest ('"' :: after)
        rw [written, atGap, isGap] at gap
        exact ⟨d, rest, rfl, gap⟩
    · cases h
  · rintro ⟨d, rest, rfl, soft⟩
    obtain ⟨e, more, written, isGap, -⟩ := exists_inner_cons d rest ('"' :: after)
    rw [inner_cons_mark mark, inner_cons_mark mark, inner_cons_mark mark]
    simp only [List.cons_append, written, isDocumentMark, beq_self_eq_true, Bool.true_and, atGap,
      isGap, soft]

theorem startsWithDocumentMark_inner (s after : List Char) :
    startsWithDocumentMark (inner s ++ '"' :: after) = opensMark s := by
  rw [Bool.eq_iff_iff, startsWithDocumentMark, Bool.or_eq_true, isDocumentMark_inner (.inl rfl),
    isDocumentMark_inner (.inr rfl)]
  constructor
  · rintro (⟨d, rest, rfl, soft⟩ | ⟨d, rest, rfl, soft⟩) <;> simp [opensMark, soft]
  · intro h
    unfold opensMark at h
    split at h
    · rename_i a b c d rest
      simp only [Bool.and_eq_true, Bool.or_eq_true, beq_iff_eq] at h
      obtain ⟨⟨⟨mark, rfl⟩, rfl⟩, soft⟩ := h
      rcases mark with rfl | rfl
      · exact .inl ⟨d, rest, rfl, soft⟩
      · exact .inr ⟨d, rest, rfl, soft⟩
    · cases h

theorem refold_cons_soft {c : Char} (soft : isSoft c = true) (gap : Gap) (rest : List Char) :
    refold gap (c :: rest) = refold (gap.push (normalBreak c)) rest := by
  rw [refold, if_pos soft]

theorem refold_cons_solid {c : Char} (solid : isSoft c = false) (gap : Gap) (rest : List Char) :
    refold gap (c :: rest) = gap.fold ++ c :: refold .empty rest := by
  rw [refold, solid, if_neg Bool.false_ne_true]

theorem refold_append_solid {front : List Char} (solid : ∀ c ∈ front, isSoft c = false)
    (s : List Char) : refold .empty (front ++ s) = front ++ refold .empty s := by
  induction front with
  | nil => rfl
  | cons c front ih =>
    obtain ⟨first, others⟩ := List.forall_mem_cons.1 solid
    rw [List.cons_append, refold_cons_solid first, ih others]
    rfl

theorem refold_append_soft {gaps s : List Char} (soft : ∀ c ∈ gaps, isSoft c = true)
    (stops : ∀ c ∈ s.head?, isSoft c = false) (gap : Gap) :
    refold gap (gaps ++ s)
      = ((gaps.map normalBreak).foldl Gap.push gap).fold ++ refold .empty s := by
  induction gaps generalizing gap with
  | nil =>
    cases s with
    | nil => simp [refold, Gap.fold, Gap.empty]
    | cons c rest =>
      rw [List.nil_append, refold_cons_solid (stops c rfl), refold_cons_solid (stops c rfl)]
      rfl
  | cons c gaps ih =>
    obtain ⟨first, others⟩ := List.forall_mem_cons.1 soft
    rw [List.cons_append, refold_cons_soft first, ih others, List.map_cons, List.foldl_cons]

theorem opensMark_of_isSoft {c : Char} (soft : isSoft c = true) (rest : List Char) :
    opensMark (c :: rest) = false := by
  unfold opensMark
  split
  · rename_i same
    obtain ⟨rfl, -⟩ := List.cons.inj same
    rw [isSoft_iff, isRawBreak_iff] at soft
    rcases soft with rfl | rfl | rfl | rfl <;> rfl
  · rfl

theorem marksLine_eq (fresh : Bool) (s : List Char) :
    marksLine fresh s = (fresh && opensMark s || marksLine false s) := by
  cases s with
  | nil => cases fresh <;> rfl
  | cons c rest => simp [marksLine]

theorem marksLine_append_solid {front : List Char} (solid : ∀ c ∈ front, isSoft c = false)
    (s : List Char) : marksLine false (front ++ s) = marksLine false s := by
  induction front with
  | nil => rfl
  | cons c front ih =>
    obtain ⟨first, others⟩ := List.forall_mem_cons.1 solid
    simp only [isSoft, Bool.or_eq_false_iff] at first
    rw [List.cons_append, marksLine, first.2, ih others]
    rfl

theorem marksLine_append_soft {gaps : List Char} (soft : ∀ c ∈ gaps, isSoft c = true)
    (s : List Char) {last : Char} (isLast : last ∈ gaps.getLast?) (fresh : Bool) :
    marksLine fresh (gaps ++ s) = marksLine (isRawBreak last) s := by
  induction gaps generalizing fresh with
  | nil => cases isLast
  | cons c gaps ih =>
    obtain ⟨first, others⟩ := List.forall_mem_cons.1 soft
    rw [List.cons_append, marksLine, opensMark_of_isSoft first, Bool.and_false, Bool.false_or]
    cases gaps with
    | nil =>
      obtain rfl : c = last := Option.some.inj isLast
      rfl
    | cons d more => exact ih others (by rwa [List.getLast?_cons_cons] at isLast) _

namespace Quoted

/-- What reading a string gives from some place in it on: an error if a line looks like a document
mark, else the text so far with the rest of the string refolded. -/
structure Finishes (fresh : Bool) (s text after : List Char) (line : ℕ)
    (result : Except YamlError (List Char × Cursor)) : Prop where
  error : marksLine fresh s = true → result = .error .malformedToken
  ok : marksLine fresh s = false → ∃ cursor', result = .ok (text.reverse ++ refold .empty s, cursor') ∧
    cursor'.rest = after ∧ cursor'.Fits ∧ cursor'.line = line + s.countP isRawBreak

/-! ### A round of the reader -/

section Round

variable {s front gaps rest after : List Char} {cursor : Cursor} {fresh : Bool}

theorem check_iff (here : cursor.rest = inner s ++ '"' :: after)
    (column : cursor.column = 0 ↔ fresh = true) :
    (cursor.column = 0 ∧ startsWithDocumentMark cursor.rest = true) ∨ cursor.rest.isEmpty = true
      ↔ (fresh && opensMark s) = true := by
  rw [here, startsWithDocumentMark_inner, column, Bool.and_eq_true]
  simp

/-- At a line that looks like a document mark a round fails. -/
theorem readWords_marked (here : cursor.rest = inner s ++ '"' :: after)
    (column : cursor.column = 0 ↔ fresh = true) (mark : (fresh && opensMark s) = true) (fuel : ℕ)
    (text : List Char) : readWords '"' (fuel + 1) text cursor = .error .malformedToken := by
  rw [readWords, if_congr (check_iff here column) rfl rfl, mark]
  rfl

/-- A round takes the solid characters first. -/
theorem readWords_run (here : cursor.rest = inner (front ++ s) ++ '"' :: after)
    (fits : cursor.Fits) (column : cursor.column = 0 ↔ fresh = true)
    (unmarked : (fresh && opensMark (front ++ s)) = false)
    (solid : ∀ c ∈ front, isSoft c = false) (stops : ∀ c ∈ s.head?, isSoft c = true) (fuel : ℕ)
    (text : List Char) :
    let behind := cursor.skip (inner front).length
    behind.rest = inner s ++ '"' :: after ∧ readWords '"' (fuel + 1) text cursor
      = if behind.head? = some '"' then .ok ((front.reverse ++ text).reverse, behind.skip 1)
        else Gap.read 0 .empty behind >>= fun read =>
          readWords '"' fuel (read.1.fold.reverse ++ (front.reverse ++ text)) read.2 := by
  have long : front.length < cursor.left := by
    rw [fits, here]
    have := length_le_inner (front ++ s)
    simp only [List.length_append, List.length_cons] at this ⊢
    omega
  refine ⟨Cursor.rest_skip_of_append ?_, ?_⟩
  · rw [here, inner_append, List.append_assoc]
  · rw [readWords, if_congr (check_iff here column) rfl rfl, unmarked, if_neg Bool.false_ne_true,
      if_neg (by decide), doubleRun_inner solid stops here long text]
    rfl

/-- If the rest of the string is solid, a round ends behind the closing quotation mark. -/
theorem readWords_closing (here : cursor.rest = inner s ++ '"' :: after) (fits : cursor.Fits)
    (column : cursor.column = 0 ↔ fresh = true) (unmarked : (fresh && opensMark s) = false)
    (solid : ∀ c ∈ s, isSoft c = false) (fuel : ℕ) (text : List Char) :
    ∃ cursor', readWords '"' (fuel + 1) text cursor = .ok (text.reverse ++ s, cursor') ∧
      cursor'.rest = after ∧ cursor'.Fits ∧ cursor'.line = cursor.line := by
  have whole : s ++ [] = s := List.append_nil s
  obtain ⟨behind, round⟩ := readWords_run (whole.symm ▸ here) fits column (whole.symm ▸ unmarked)
    solid (by simp) fuel text
  have closing : (cursor.skip (inner s).length).rest = ['"'] ++ after := behind
  refine ⟨(cursor.skip (inner s).length).skip 1, ?_, Cursor.rest_skip_of_append closing,
    (fits.skip _).skip 1, rfl⟩
  rw [round, if_pos (by rw [Cursor.head?, closing]; rfl)]
  simp

/-- Else a round folds the gap behind the solid characters, and the next one starts behind it. -/
theorem readWords_gap (here : cursor.rest = inner (front ++ (gaps ++ rest)) ++ '"' :: after)
    (fits : cursor.Fits) (column : cursor.column = 0 ↔ fresh = true)
    (unmarked : (fresh && opensMark (front ++ (gaps ++ rest))) = false)
    (solid : ∀ c ∈ front, isSoft c = false) (soft : ∀ c ∈ gaps, isSoft c = true)
    (nonempty : gaps ≠ []) (stops : ∀ c ∈ rest.head?, isSoft c = false) (fuel : ℕ)
    (text : List Char) :
    ∃ cursor', readWords '"' (fuel + 1) text cursor
        = readWords '"' fuel (((gaps.map normalBreak).foldl Gap.push .empty).fold.reverse
            ++ (front.reverse ++ text)) cursor' ∧
      cursor'.rest = inner rest ++ '"' :: after ∧ cursor'.Fits ∧
      cursor'.line = cursor.line + gaps.countP isRawBreak ∧
      ∀ c ∈ gaps.getLast?, cursor'.column = 0 ↔ isRawBreak c = true := by
  obtain ⟨g, more, rfl⟩ := List.exists_cons_of_ne_nil nonempty
  obtain ⟨behind, round⟩ := readWords_run here fits column unmarked solid
    (by rintro c ⟨⟩; exact soft g (List.mem_cons_self ..)) fuel text
  have inside : (cursor.skip (inner front).length).head? ≠ some '"' := by
    obtain ⟨d, others, written, gap, -⟩ := exists_inner_cons g (more ++ rest) ('"' :: after)
    rw [List.cons_append, written] at behind
    rw [Cursor.head?, behind, List.head?_cons]
    rintro ⟨⟩
    rw [soft g (List.mem_cons_self ..)] at gap
    cases gap
  obtain ⟨column', read, zero⟩ := @Gap.readFrom_inner _ _ after soft stops
    (cursor.skip (inner front).length).left (cursor.skip (inner front).length).line
    (cursor.skip (inner front).length).column Gap.empty
  rw [← behind] at read
  refine ⟨⟨inner rest ++ '"' :: after, (cursor.skip (inner front).length).left - (g :: more).length,
    _, column'⟩, ?_, rfl, ?_, rfl, zero⟩
  · rw [round, if_neg inside, Gap.read, read]
    rfl
  · rw [Cursor.Fits, fits.skip, behind, inner_append, inner_of_isSoft soft, List.append_assoc,
      List.length_append, List.length_map, Nat.add_sub_cancel_left]

end Round

/-- What reading a string gives, round by round. -/
theorem readWords_inner {after : List Char} (n : ℕ) {s : List Char} (size : s.length = n)
    {fuel : ℕ} (enough : s.length < fuel) (text : List Char) {cursor : Cursor}
    (here : cursor.rest = inner s ++ '"' :: after) (fits : cursor.Fits) {fresh : Bool}
    (column : cursor.column = 0 ↔ fresh = true) :
    Finishes fresh s text after cursor.line (readWords '"' fuel text cursor) := by
  induction n using Nat.strong_induction_on generalizing s fuel text cursor fresh with
  | _ n ih =>
    obtain ⟨fuel, rfl⟩ := Nat.exists_eq_succ_of_ne_zero (Nat.ne_of_gt (Nat.zero_lt_of_lt enough))
    cases mark : fresh && opensMark s with
    | true =>
      refine ⟨fun _ => readWords_marked here column mark fuel text, fun none => ?_⟩
      rw [marksLine_eq, mark] at none
      cases none
    | false =>
      -- a run of solid characters, the gap behind it, and the rest
      obtain ⟨front, back, rfl, solid, stops⟩ := exists_cut (fun c => !isSoft c) s
      simp only [Bool.not_eq_true', Bool.not_eq_false'] at solid stops
      obtain ⟨gaps, rest, rfl, soft, stops'⟩ := exists_cut isSoft back
      have unbroken : front.countP isRawBreak = 0 := by
        refine List.countP_eq_zero.2 fun c member => ?_
        have first := solid c member
        simp only [isSoft, Bool.or_eq_false_iff] at first
        simp [first.2]
      have marks : marksLine fresh (front ++ (gaps ++ rest)) = marksLine false (gaps ++ rest) := by
        rw [marksLine_eq, mark, Bool.false_or, marksLine_append_solid solid]
      have folded := refold_append_solid solid (gaps ++ rest)
      rcases eq_or_ne gaps [] with rfl | nonempty
      · -- nothing stops the run, so the string is solid
        obtain rfl : rest = [] := by
          cases rest with
          | nil => rfl
          | cons c rest => cases (stops c rfl).symm.trans (stops' c rfl)
        simp only [List.append_nil] at here mark marks folded ⊢
        obtain ⟨cursor', round, rest', isFit, line⟩ :=
          readWords_closing here fits column mark solid fuel text
        refine ⟨fun h => absurd (marks.symm.trans h) Bool.false_ne_true, fun _ => ?_⟩
        refine ⟨cursor', ?_, rest', isFit, ?_⟩
        · rw [round, folded]
          simp [refold, Gap.fold, Gap.empty]
        · rw [line, unbroken, Nat.add_zero]
      · -- the gap is folded, and the next round reads the rest
        obtain ⟨last, isLast⟩ : ∃ last, last ∈ gaps.getLast? :=
          ⟨_, List.getLast?_eq_some_getLast nonempty⟩
        obtain ⟨cursor', round, rest', isFit, line, zero⟩ :=
          readWords_gap here fits column mark solid soft nonempty stops' fuel text
        have small : rest.length < (front ++ (gaps ++ rest)).length := by
          have := List.length_pos_of_ne_nil nonempty
          simp only [List.length_append]
          omega
        have enough' : rest.length < fuel := by omega
        obtain ⟨error, ok⟩ := ih rest.length (size ▸ small) rfl enough'
          (((gaps.map normalBreak).foldl Gap.push .empty).fold.reverse ++ (front.reverse ++ text))
          rest' isFit (zero last isLast)
        have next : marksLine fresh (front ++ (gaps ++ rest)) = marksLine (isRawBreak last) rest :=
          marks.trans (marksLine_append_soft soft rest isLast false)
        rw [refold_append_soft soft stops'] at folded
        rw [round]
        refine ⟨fun h => error (next ▸ h), fun h => ?_⟩
        obtain ⟨cursor'', result, after', isFit', line'⟩ := ok (next ▸ h)
        refine ⟨cursor'', ?_, after', isFit', ?_⟩
        · rw [result, folded]
          simp
        · rw [line', line, List.countP_append, List.countP_append, unbroken, Nat.zero_add,
            Nat.add_assoc]

/-- **What is read of a string that was written.** A line of it that looks like a document mark is
an error. Else reading goes on behind the closing quotation mark, as many lines below as the string
has breaks. -/
theorem read_written {s after : List Char} {cursor : Cursor}
    (here : cursor.rest = '"' :: (inner s ++ '"' :: after)) (fits : cursor.Fits) :
    Finishes false s [] after cursor.line (Quoted.read '"' cursor) := by
  have inside : (cursor.skip 1).rest = inner s ++ '"' :: after := by
    rw [Cursor.skip, here, List.drop_one, List.tail_cons]
  have column : (cursor.skip 1).column = 0 ↔ false = true := by simp [Cursor.skip]
  refine readWords_inner s.length rfl ?_ [] inside (fits.skip 1) column
  rw [fits.skip 1, inside]
  have := length_le_inner s
  simp only [List.length_append, List.length_cons]
  omega

end Quoted

/-! ## Strings that stay as they are -/

/-- Of two neighbours not one is a space and the other one a break. -/
def Apart (a b : Char) : Prop :=
  ¬ (a = ' ' ∧ isRawBreak b = true) ∧ ¬ (isRawBreak a = true ∧ b = ' ')

instance : DecidableRel Apart :=
  fun _ _ => inferInstanceAs (Decidable (¬ (_ ∧ _) ∧ ¬ (_ ∧ _)))

theorem apart_of_solid_left {a : Char} (solid : isSoft a = false) (b : Char) : Apart a b := by
  simp only [isSoft, Bool.or_eq_false_iff, beq_eq_false_iff_ne] at solid
  exact ⟨fun h => solid.1 h.1, fun h => by simp [solid.2] at h⟩

theorem apart_of_solid_right {b : Char} (solid : isSoft b = false) (a : Char) : Apart a b := by
  simp only [isSoft, Bool.or_eq_false_iff, beq_eq_false_iff_ne] at solid
  exact ⟨fun h => by simp [solid.2] at h, fun h => solid.1 h.2⟩

/-- The gaps that lose nothing, with the character that was read last: none, spaces alone, or
breaks alone. -/
inductive Gap.Whole : Gap → List Char → Prop
  | empty : Whole .empty []
  | spaces (more : List Char) : Whole ⟨more ++ [' '], false, none, []⟩ [' ']
  | breaks {first last : Char} (more : List Char) (ne : first ≠ '\n')
      (isBreak : isRawBreak last = true) : Whole ⟨[], true, some first, more⟩ [last]

theorem Gap.fold_of_ne {first : Char} (ne : first ≠ '\n') (spaces more : List Char) :
    Gap.fold ⟨spaces, true, some first, more⟩ = first :: more := by
  unfold Gap.fold
  rw [if_pos rfl]
  split
  · rename_i same
    cases same
  · rename_i same
    exact absurd (Option.some.inj same) ne
  · rename_i same
    obtain rfl := Option.some.inj same
    rfl

namespace Gap.Whole

variable {gap : Gap} {last : List Char}

/-- A gap goes on with a character that does not disturb it, and else becomes no longer. -/
theorem push (h : gap.Whole last) {c : Char} (soft : isSoft c = true) (ne : c ≠ '\u0085') :
    ((∀ d ∈ last, Apart d c) → (gap.push (normalBreak c)).Whole [c] ∧
      (gap.push (normalBreak c)).fold = gap.fold ++ [c]) ∧
    (¬ (∀ d ∈ last, Apart d c) → ∃ last', (gap.push (normalBreak c)).Whole last' ∧
      (gap.push (normalBreak c)).fold.length ≤ gap.fold.length) := by
  rw [show normalBreak c = c from if_neg ne]
  rcases isSoft_iff.1 soft with rfl | isBreak
  · have blank (gap : Gap) : gap.push ' ' = gap.addBlank ' ' := if_pos rfl
    cases h with
    | empty => exact ⟨fun _ => ⟨.spaces [], rfl⟩, fun h => absurd (by simp) h⟩
    | spaces more =>
      have apart : ∀ d ∈ [' '], Apart d ' ' := by simp [Apart, isRawBreak]
      exact ⟨fun _ => ⟨.spaces (more ++ [' ']), rfl⟩, fun h => absurd apart h⟩
    | @breaks first last more ne' isBreak =>
      refine ⟨fun apart => absurd ⟨isBreak, rfl⟩ (apart last (by simp)).2, fun _ => ?_⟩
      rw [blank]
      exact ⟨[last], .breaks more ne' isBreak, le_refl _⟩
  · have other : c ≠ ' ' := by
      rintro rfl
      cases isBreak
    have line : c ≠ '\n' := by
      rintro rfl
      cases isBreak
    have tab : c ≠ '\t' := by
      rintro rfl
      cases isBreak
    have broken (gap : Gap) : gap.push c = gap.addBreak c := if_neg (by simp [isBlank, other, tab])
    cases h with
    | empty => exact ⟨fun _ => by
        rw [broken]
        exact ⟨.breaks [] line isBreak, Gap.fold_of_ne line [] []⟩, fun h => absurd (by simp) h⟩
    | spaces more =>
      refine ⟨fun apart => absurd ⟨rfl, isBreak⟩ (apart ' ' (by simp)).1, fun _ => ?_⟩
      rw [broken]
      refine ⟨[c], .breaks [] line isBreak, ?_⟩
      rw [show Gap.addBreak _ c = ⟨[], true, some c, []⟩ from rfl, Gap.fold_of_ne line]
      simp [Gap.fold]
    | @breaks first last more ne' isBreak' =>
      have apart : ∀ d ∈ [last], Apart d c := by
        simp only [List.mem_singleton, forall_eq, Apart, other, and_false, not_false_iff, and_true,
          isBreak]
        rintro rfl
        cases isBreak'
      refine ⟨fun _ => ?_, fun h => absurd apart h⟩
      rw [broken]
      refine ⟨.breaks (more ++ [c]) ne' isBreak, ?_⟩
      rw [show Gap.addBreak _ c = ⟨[], true, some first, more ++ [c]⟩ from rfl,
        Gap.fold_of_ne ne', Gap.fold_of_ne ne', List.cons_append]

theorem isChain_cons (h : gap.Whole last) (c : Char) (rest : List Char) :
    (last ++ c :: rest).IsChain Apart ↔ (∀ d ∈ last, Apart d c) ∧ (c :: rest).IsChain Apart := by
  cases h <;> simp

theorem isChain (h : gap.Whole last) : last.IsChain Apart := by
  cases h <;> simp

end Gap.Whole

theorem length_refold_le {s : List Char} (next : '\u0085' ∉ s) {gap : Gap} {last : List Char}
    (h : gap.Whole last) : (refold gap s).length ≤ gap.fold.length + s.length := by
  induction s generalizing gap last with
  | nil => exact Nat.le_refl _
  | cons c rest ih =>
    obtain ⟨ne, next⟩ := not_or.1 (mt List.mem_cons.2 next)
    cases soft : isSoft c with
    | true =>
      obtain ⟨whole, dropped⟩ := h.push soft (Ne.symm ne)
      rw [refold_cons_soft soft, List.length_cons]
      by_cases apart : ∀ d ∈ last, Apart d c
      · have bound := ih next (whole apart).1
        rw [(whole apart).2, List.length_append, List.length_singleton] at bound
        omega
      · obtain ⟨last', whole', shorter⟩ := dropped apart
        have bound := ih next whole'
        omega
    | false =>
      have bound := ih next .empty
      have none : Gap.empty.fold.length = 0 := rfl
      rw [refold_cons_solid soft, List.length_append, List.length_cons, List.length_cons]
      omega

/-- Without the break that becomes a space, a string stays as it is exactly if no space stands
beside a break. -/
theorem refold_eq_append_iff {s : List Char} (next : '\u0085' ∉ s) {gap : Gap} {last : List Char}
    (h : gap.Whole last) : refold gap s = gap.fold ++ s ↔ (last ++ s).IsChain Apart := by
  induction s generalizing gap last with
  | nil => simp [refold, h.isChain]
  | cons c rest ih =>
    obtain ⟨ne, next⟩ := not_or.1 (mt List.mem_cons.2 next)
    rw [h.isChain_cons]
    cases soft : isSoft c with
    | true =>
      obtain ⟨whole, dropped⟩ := h.push soft (Ne.symm ne)
      rw [refold_cons_soft soft]
      by_cases apart : ∀ d ∈ last, Apart d c
      · rw [and_iff_right apart, ← List.singleton_append, ← ih next (whole apart).1,
          (whole apart).2, List.append_assoc]
      · obtain ⟨last', whole', shorter⟩ := dropped apart
        have bound := length_refold_le next whole'
        refine iff_of_false (fun same => ?_) fun both => apart both.1
        rw [same, List.length_append, List.length_cons] at bound
        omega
    | false =>
      have apart : ∀ d ∈ last, Apart d c := fun d _ => apart_of_solid_right soft d
      have after : (c :: rest).IsChain Apart ↔ rest.IsChain Apart := by
        cases rest with
        | nil => simp
        | cons d rest => simp [apart_of_solid_left soft d]
      have again : refold .empty rest = rest ↔ rest.IsChain Apart := ih next .empty
      rw [and_iff_right apart, after, ← again, refold_cons_solid soft, List.append_cancel_left_eq,
        List.cons.injEq, and_iff_right rfl]

/-- The break that is read as a line feed is not in a gap. -/
structure Gap.Normal (gap : Gap) : Prop where
  spaces : '\u0085' ∉ gap.spaces
  firstBreak : '\u0085' ∉ gap.firstBreak
  moreBreaks : '\u0085' ∉ gap.moreBreaks

theorem Gap.Normal.notMem_fold {gap : Gap} (h : gap.Normal) : '\u0085' ∉ gap.fold := by
  unfold Gap.fold
  split
  · split
    · exact h.moreBreaks
    · split
      · decide
      · exact h.moreBreaks
    · rename_i first here
      have ne := h.firstBreak
      rw [here] at ne
      rw [List.mem_cons, not_or]
      exact ⟨fun same => ne (same ▸ rfl), h.moreBreaks⟩
  · exact h.spaces

theorem Gap.Normal.push {gap : Gap} (h : gap.Normal) {c : Char} (ne : '\u0085' ≠ c) :
    (gap.push c).Normal := by
  unfold Gap.push
  split
  · unfold Gap.addBlank
    split
    · exact h
    · refine ⟨?_, h.firstBreak, h.moreBreaks⟩
      simpa [ne] using h.spaces
  · unfold Gap.addBreak
    split
    · refine ⟨h.spaces, h.firstBreak, ?_⟩
      simpa [ne] using h.moreBreaks
    · exact ⟨by simp, fun member => ne (Option.some.inj member).symm, by simp⟩

theorem notMem_refold (s : List Char) {gap : Gap} (h : gap.Normal) : '\u0085' ∉ refold gap s := by
  induction s generalizing gap with
  | nil => exact h.notMem_fold
  | cons c rest ih =>
    cases soft : isSoft c with
    | true =>
      have ne : '\u0085' ≠ normalBreak c := by
        unfold normalBreak
        split
        · decide
        · rename_i other
          exact Ne.symm other
      rw [refold_cons_soft soft]
      exact ih (h.push ne)
    | false =>
      have ne : '\u0085' ≠ c := by
        rintro rfl
        cases soft
      rw [refold_cons_solid soft, List.mem_append, List.mem_cons, not_or, not_or]
      exact ⟨h.notMem_fold, ne, ih ⟨by simp [Gap.empty], by simp [Gap.empty], by simp [Gap.empty]⟩⟩

/-- **The strings that stay as they are**: those without the break that becomes a space, and without
a space beside another break. -/
theorem refold_eq_self_iff {s : List Char} :
    refold .empty s = s ↔ '\u0085' ∉ s ∧ s.IsChain Apart := by
  have normal : Gap.empty.Normal := ⟨by simp [Gap.empty], by simp [Gap.empty], by simp [Gap.empty]⟩
  constructor
  · intro same
    have next : '\u0085' ∉ s := same ▸ notMem_refold s normal
    exact ⟨next, (refold_eq_append_iff next .empty).1 same⟩
  · rintro ⟨next, chain⟩
    exact (refold_eq_append_iff next .empty).2 chain

end SchemaBundle.Yaml
