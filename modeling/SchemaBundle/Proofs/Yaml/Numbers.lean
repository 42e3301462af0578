import SchemaBundle.Proofs.Decimal.Shortest
import SchemaBundle.Json.Writer
import SchemaBundle.Yaml.Core

/-!
# Numbers that were written are read as numbers

Whole numbers are written in decimal digits, and binary numbers with a point or an exponent
(`Decimal.IsText`). An unquoted scalar of either kind means the number that was written
(`Core.untagged_integerChars`, `Core.untagged_chars`): a text of digits alone is a whole number, and
one with a point or an exponent is none.
-/

namespace SchemaBundle.Yaml.Core

/-! ## Digits -/

theorem digit?_of_isDigit {c : Char} (h : c.isDigit) : digit? c = some (c.toNat - 48) := by
  rw [Char.isDigit, Bool.and_eq_true, decide_eq_true_iff, decide_eq_true_iff] at h
  exact if_pos ⟨h.1, h.2⟩

/-- The digits of base ten have values below ten, and no other character has. -/
theorem digit?_lt_ten_iff {c : Char} : (∃ d, digit? c = some d ∧ d < 10) ↔ c.isDigit := by
  constructor
  · rintro ⟨d, found, small⟩
    unfold digit? at found
    split at found
    · rename_i h
      rw [Char.isDigit, Bool.and_eq_true, decide_eq_true_iff, decide_eq_true_iff]
      exact ⟨h.1, h.2⟩
    split at found
    · rename_i h
      have low : 97 ≤ c.toNat := h.1
      obtain rfl := Option.some.inj found
      omega
    split at found
    · rename_i h
      have low : 65 ≤ c.toNat := h.1
      obtain rfl := Option.some.inj found
      omega
    · cases found
  · intro h
    refine ⟨_, digit?_of_isDigit h, ?_⟩
    rw [Char.isDigit, Bool.and_eq_true, decide_eq_true_iff, decide_eq_true_iff] at h
    have high : c.toNat ≤ 57 := h.2
    omega

/-- One more digit behind a number; the value of the digit is below ten. -/
def pushDigit (acc : Option ℕ) (c : Char) : Option ℕ :=
  match acc, digit? c with
  | some n, some d => if d < 10 then some (10 * n + d) else none
  | _, _ => none

theorem natural?_eq_foldl {digits : List Char} (nonempty : digits ≠ []) :
    natural? 10 digits = digits.foldl pushDigit (some 0) := by
  cases digits with
  | nil => exact absurd rfl nonempty
  | cons c rest => rfl

theorem pushDigit_of_isDigit {c : Char} (h : c.isDigit) (n : ℕ) :
    pushDigit (some n) c = some (10 * n + (c.toNat - 48)) := by
  obtain ⟨d, found, small⟩ := digit?_lt_ten_iff.2 h
  obtain rfl := Option.some.inj ((digit?_of_isDigit h).symm.trans found)
  simp only [pushDigit, found, if_pos small]

theorem pushDigit_of_not {c : Char} (h : c.isDigit = false) (acc : Option ℕ) :
    pushDigit acc c = none := by
  unfold pushDigit
  split
  · rename_i found
    refine if_neg fun small => ?_
    rw [digit?_lt_ten_iff.1 ⟨_, found, small⟩] at h
    cases h
  · rfl

theorem natural?_of_all {digits : List Char} (nonempty : digits ≠ [])
    (all : ∀ c ∈ digits, c.isDigit) : natural? 10 digits = some (Nat.ofDigitChars 10 digits 0) := by
  have onto (n : ℕ) : digits.foldl pushDigit (some n) = some (Nat.ofDigitChars 10 digits n) := by
    clear nonempty
    induction digits generalizing n with
    | nil => rfl
    | cons c rest ih =>
      obtain ⟨first, rest'⟩ := List.forall_mem_cons.1 all
      rw [List.foldl_cons, pushDigit_of_isDigit first, Nat.ofDigitChars_cons, ih rest']
      rfl
  rw [natural?_eq_foldl nonempty, onto]

theorem natural?_of_mem {digits : List Char} {c : Char} (member : c ∈ digits)
    (other : c.isDigit = false) : natural? 10 digits = none := by
  have stuck (rest : List Char) : rest.foldl pushDigit none = none := by
    induction rest with
    | nil => rfl
    | cons _ _ ih => exact ih
  obtain ⟨before, after, rfl⟩ := List.append_of_mem member
  rw [natural?_eq_foldl (by simp), List.foldl_append, List.foldl_cons, pushDigit_of_not other,
    stuck]

/-- The digits of a number are not led by a zero. -/
theorem toDigits_ne_zero_cons {n : ℕ} {d : Char} {rest : List Char} :
    Nat.toDigits 10 n ≠ '0' :: d :: rest := by
  induction n using Nat.strongRecOn generalizing d rest with
  | ind n ih =>
    intro same
    rw [Nat.toDigits_eq_if (by norm_num)] at same
    split at same
    · exact absurd (congrArg List.length same) (by simp)
    · rename_i large
      cases front : Nat.toDigits 10 (n / 10) with
      | nil => exact Nat.toDigits_ne_nil front
      | cons c more =>
        rw [front, List.cons_append, List.cons.injEq] at same
        obtain ⟨rfl, same⟩ := same
        cases more with
        | nil =>
          have zero := @Nat.ofDigitChars_ten_toDigits (n / 10)
          rw [front] at zero
          have : n / 10 = 0 := zero.symm
          omega
        | cons d more => exact ih (n / 10) (by omega) front

/-! ## Texts that start with a digit, perhaps behind a sign -/

/-- A text with a minus sign or without. -/
def signed (negative : Bool) (body : List Char) : List Char :=
  if negative then '-' :: body else body

section Signed

variable {negative : Bool} {c : Char} {rest : List Char}

theorem ne_of_isDigit (h : c.isDigit) {d : Char} (other : d.isDigit = false) : c ≠ d := by
  rintro rfl
  rw [h] at other
  cases other

/-- The first character is a digit or a minus. -/
theorem signed_cases (h : c.isDigit) : ∃ d more, signed negative (c :: rest) = d :: more ∧
    (d.isDigit ∨ d = '-') := by
  cases negative with
  | false => exact ⟨c, rest, rfl, .inl h⟩
  | true => exact ⟨'-', c :: rest, rfl, .inr rfl⟩

theorem isNull_signed (h : c.isDigit) : isNull (signed negative (c :: rest)) = false := by
  obtain ⟨d, more, same, digit | rfl⟩ := @signed_cases negative c rest h
  · have n := ne_of_isDigit digit (by decide : 'n'.isDigit = false)
    have N := ne_of_isDigit digit (by decide : 'N'.isDigit = false)
    have tilde := ne_of_isDigit digit (by decide : '~'.isDigit = false)
    simp [same, isNull, n, N, tilde]
  · simp [same, isNull]

theorem bool?_signed (h : c.isDigit) : bool? (signed negative (c :: rest)) = none := by
  obtain ⟨d, more, same, digit | rfl⟩ := @signed_cases negative c rest h
  · have t := ne_of_isDigit digit (by decide : 't'.isDigit = false)
    have T := ne_of_isDigit digit (by decide : 'T'.isDigit = false)
    have f := ne_of_isDigit digit (by decide : 'f'.isDigit = false)
    have F := ne_of_isDigit digit (by decide : 'F'.isDigit = false)
    simp [same, bool?, t, T, f, F]
  · simp [same, bool?]

theorem integer?_signed (h : c.isDigit) : integer? (signed negative (c :: rest)) =
    (magnitude? (signed negative (c :: rest)) (c :: rest)).map fun n : ℕ =>
      if negative then -(n : ℤ) else (n : ℤ) := by
  cases negative with
  | true =>
    rw [signed, if_pos rfl, integer?]
    cases magnitude? ('-' :: c :: rest) (c :: rest) <;> rfl
  | false =>
    have plus := ne_of_isDigit h (by decide : '+'.isDigit = false)
    have minus := ne_of_isDigit h (by decide : '-'.isDigit = false)
    unfold integer? signed
    simp only [Bool.false_eq_true, if_false]
    split
    · rename_i same
      exact absurd (List.cons.inj same).1 plus
    · rename_i same
      exact absurd (List.cons.inj same).1 minus
    · rfl

theorem hasLeadingZero_signed (h : c.isDigit) :
    hasLeadingZero (signed negative (c :: rest)) = hasLeadingZero (c :: rest) := by
  have plus := ne_of_isDigit h (by decide : '+'.isDigit = false)
  have minus := ne_of_isDigit h (by decide : '-'.isDigit = false)
  cases negative with
  | false => rfl
  | true => simp [signed, hasLeadingZero, isSign, plus, minus]

theorem float?_signed (h : c.isDigit) :
    float? (signed negative (c :: rest)) = (decimal? negative (c :: rest)).map .float := by
  have plus := ne_of_isDigit h (by decide : '+'.isDigit = false)
  have minus := ne_of_isDigit h (by decide : '-'.isDigit = false)
  have point := ne_of_isDigit h (by decide : '.'.isDigit = false)
  cases negative with
  | true => simp [signed, float?, point]
  | false =>
    unfold float? signed
    simp only [Bool.false_eq_true, if_false, List.head?_cons, Option.some.injEq, plus, false_and]
    split
    · rename_i same
      exact absurd (List.cons.inj same).1 plus
    · simp [point, minus]

end Signed

/-! ## Whole numbers -/

theorem magnitude?_of_all {whole text : List Char} (nonempty : text ≠ [])
    (all : ∀ c ∈ text, c.isDigit) (proper : hasLeadingZero whole = false) :
    magnitude? whole text = some (Nat.ofDigitChars 10 text 0) := by
  have plain {d : Char} {rest : List Char} (same : text = '0' :: d :: rest) : d.isDigit :=
    all d (by simp [same])
  unfold magnitude?
  split
  · exact absurd (plain rfl) (by decide)
  · exact absurd (plain rfl) (by decide)
  · exact absurd (plain rfl) (by decide)
  · rw [proper, if_neg Bool.false_ne_true, natural?_of_all nonempty all]

theorem exists_cons_toDigits (n : ℕ) :
    ∃ c rest, Nat.toDigits 10 n = c :: rest ∧ c.isDigit ∧ hasLeadingZero (c :: rest) = false := by
  cases digits : Nat.toDigits 10 n with
  | nil => exact absurd digits Nat.toDigits_ne_nil
  | cons c rest =>
    have digit : c.isDigit :=
      Nat.isDigit_of_mem_toDigits (by norm_num) (by norm_num) (digits ▸ List.mem_cons_self ..)
    refine ⟨c, rest, rfl, digit, ?_⟩
    have unsigned : isSign c = false := by
      have plus := ne_of_isDigit digit (by decide : '+'.isDigit = false)
      have minus := ne_of_isDigit digit (by decide : '-'.isDigit = false)
      simp [isSign, plus, minus]
    unfold hasLeadingZero
    dsimp only
    rw [unsigned, if_neg Bool.false_ne_true]
    split
    · rename_i same
      exact absurd (digits.trans same) toDigits_ne_zero_cons
    · rfl

/-- A whole number as digits behind a sign or none. -/
theorem exists_integerChars (n : ℤ) : ∃ c rest,
    Json.integerChars n = signed (decide (n < 0)) (c :: rest) ∧ c.isDigit ∧
      integer? (Json.integerChars n) = some n := by
  obtain ⟨c, rest, digits, digit, proper⟩ := exists_cons_toDigits n.natAbs
  have text : Json.integerChars n = signed (decide (n < 0)) (c :: rest) := by
    simp [Json.integerChars, Decimal.digitChars, digits, signed]
  have all : ∀ d ∈ c :: rest, d.isDigit := fun d member =>
    Nat.isDigit_of_mem_toDigits (by norm_num) (by norm_num) (digits ▸ member)
  have value : Nat.ofDigitChars 10 (c :: rest) 0 = n.natAbs := by
    rw [← digits, Nat.ofDigitChars_ten_toDigits]
  refine ⟨c, rest, text, digit, ?_⟩
  rw [text, integer?_signed digit, magnitude?_of_all (by simp) all
    ((hasLeadingZero_signed digit).trans proper), value, Option.map_some]
  simp only [decide_eq_true_eq]
  congr 1
  split <;> omega

/-- The whole number of a text that was written for one. -/
theorem integer?_integerChars (n : ℤ) : integer? (Json.integerChars n) = some n := by
  obtain ⟨-, -, -, -, number⟩ := exists_integerChars n
  exact number

/-- **A whole number is read as it was written**, within the range of values. -/
theorem untagged_integerChars {n : ℤ} (range : isInRange n = true) :
    untagged (Json.integerChars n) = .ok (.number (.int n)) := by
  obtain ⟨c, rest, text, digit, number⟩ := exists_integerChars n
  rw [text] at number ⊢
  have nonempty : (signed (decide (n < 0)) (c :: rest)).isEmpty = false := by
    unfold signed
    split <;> rfl
  rw [untagged, nonempty, isNull_signed digit, Bool.or_self, if_neg Bool.false_ne_true,
    bool?_signed digit, integerValue?, number]
  simp only [range, if_true]

/-! ## Binary numbers -/

/-- A decimal behind no sign, as digits around a point and an exponent. One of the two is there. -/
inductive IsText (digits : ℕ) (k : ℤ) : List Char → Prop
  | point {whole fraction : List Char} {behind : List Char} {e : ℤ} (nonempty : whole ≠ [])
      (all : ∀ c ∈ whole ++ fraction, c.isDigit) (exponent : exponent? behind = some e)
      (value : Nat.ofDigitChars 10 (whole ++ fraction) 0 = digits)
      (scale : k = e - fraction.length) : IsText digits k (whole ++ '.' :: (fraction ++ behind))
  | exponent {whole behind : List Char} (nonempty : whole ≠ []) (all : ∀ c ∈ whole, c.isDigit)
      (exponent : exponent? ('e' :: behind) = some k)
      (value : Nat.ofDigitChars 10 whole 0 = digits) : IsText digits k (whole ++ 'e' :: behind)

theorem not_isDigit_of_exponent? {behind : List Char} {e : ℤ} (h : exponent? behind = some e) :
    behind.takeWhile Char.isDigit = [] ∧ behind.dropWhile Char.isDigit = behind := by
  cases behind with
  | nil => exact ⟨rfl, rfl⟩
  | cons c rest =>
    have mark : c = 'e' ∨ c = 'E' := by
      by_contra other
      simp [exponent?, other] at h
    have other : c.isDigit = false := by
      rcases mark with rfl | rfl <;> rfl
    rw [List.takeWhile_cons, List.dropWhile_cons, other]
    exact ⟨rfl, rfl⟩

namespace IsText

variable {digits : ℕ} {k : ℤ} {body : List Char}

/-- The text starts with a digit and goes on with one, with the point or with an exponent. -/
theorem start (h : IsText digits k body) :
    ∃ c d rest, body = c :: d :: rest ∧ c.isDigit ∧ (d.isDigit ∨ d = '.' ∨ d = 'e') := by
  cases h with
  | @point whole fraction behind e nonempty all _ _ _ =>
    match whole, nonempty with
    | [c], _ => exact ⟨c, '.', fraction ++ behind, rfl, all c (by simp), .inr (.inl rfl)⟩
    | c :: d :: more, _ =>
      exact ⟨c, d, more ++ '.' :: (fraction ++ behind), rfl, all c (by simp),
        .inl (all d (by simp))⟩
  | @exponent whole behind nonempty all _ _ =>
    match whole, nonempty with
    | [c], _ => exact ⟨c, 'e', behind, rfl, all c (by simp), .inr (.inr rfl)⟩
    | c :: d :: more, _ =>
      exact ⟨c, d, more ++ 'e' :: behind, rfl, all c (by simp), .inl (all d (by simp))⟩

/-- Not all characters are digits. -/
theorem exists_mem (h : IsText digits k body) : ∃ c ∈ body, c.isDigit = false := by
  cases h with
  | point => exact ⟨'.', by simp, rfl⟩
  | exponent => exact ⟨'e', by simp, rfl⟩

/-- A text with a point or an exponent is no whole number. -/
theorem magnitude?_eq_none (h : IsText digits k body) (whole : List Char) :
    magnitude? whole body = none := by
  obtain ⟨c, d, rest, rfl, -, second⟩ := h.start
  have noMark {m : Char} {more : List Char} (same : c :: d :: rest = '0' :: m :: more)
      (other : m.isDigit = false) (point : m ≠ '.') (mark : m ≠ 'e') : False := by
    obtain ⟨-, rfl, -⟩ := (by simpa using same : c = '0' ∧ d = m ∧ rest = more)
    rcases second with digit | same | same
    · rw [digit] at other
      cases other
    · exact point same
    · exact mark same
  unfold magnitude?
  split
  · exact (noMark ‹_› rfl (by decide) (by decide)).elim
  · exact (noMark ‹_› rfl (by decide) (by decide)).elim
  · exact (noMark ‹_› rfl (by decide) (by decide)).elim
  · obtain ⟨other, member, notDigit⟩ := h.exists_mem
    rw [natural?_of_mem member notDigit, ite_self]

theorem hasLeadingZero_eq_false (h : IsText digits k body) : hasLeadingZero body = false := by
  obtain ⟨c, d, rest, rfl, digit, -⟩ := h.start
  obtain ⟨other, member, notDigit⟩ := h.exists_mem
  have ne : other ≠ c := fun same => by
    rw [same, digit] at notDigit
    cases notDigit
  have later : other ∈ d :: rest := (List.mem_cons.1 member).resolve_left ne
  have notAll : (d :: rest).all Char.isDigit = false :=
    List.all_eq_false.2 ⟨other, later, by simp [notDigit]⟩
  have unsigned : isSign c = false := by
    have plus := ne_of_isDigit digit (by decide : '+'.isDigit = false)
    have minus := ne_of_isDigit digit (by decide : '-'.isDigit = false)
    simp [isSign, plus, minus]
  unfold hasLeadingZero
  dsimp only
  rw [unsigned, if_neg Bool.false_ne_true]
  split
  · rename_i same
    obtain ⟨-, rest'⟩ := List.cons.inj same
    rw [← rest', notAll]
  · rfl

/-- The text is read as the ratio that it writes. -/
theorem decimal?_eq (h : IsText digits k body) (negative : Bool) :
    decimal? negative body = Binary64.ofDecimal negative digits k := by
  cases h with
  | @point whole fraction behind e nonempty all exponent value scale =>
    obtain ⟨allWhole, allFraction⟩ := List.forall_mem_append.1 all
    obtain ⟨none, rest⟩ := not_isDigit_of_exponent? exponent
    have front : (whole ++ '.' :: (fraction ++ behind)).takeWhile Char.isDigit = whole := by
      rw [List.takeWhile_append_of_pos allWhole, List.takeWhile_cons_of_neg (by decide),
        List.append_nil]
    have back : (whole ++ '.' :: (fraction ++ behind)).dropWhile Char.isDigit
        = '.' :: (fraction ++ behind) := by
      rw [List.dropWhile_append_of_pos allWhole, List.dropWhile_cons_of_neg (by decide)]
    have front' : (fraction ++ behind).takeWhile Char.isDigit = fraction := by
      rw [List.takeWhile_append_of_pos allFraction, none, List.append_nil]
    have back' : (fraction ++ behind).dropWhile Char.isDigit = behind := by
      rw [List.dropWhile_append_of_pos allFraction, rest]
    rw [decimal?]
    simp only [front, back, front', back', natural?_of_all (by simp [nonempty]) all, exponent,
      value, scale]
  | @exponent whole behind nonempty all exponent value =>
    have front : (whole ++ 'e' :: behind).takeWhile Char.isDigit = whole := by
      rw [List.takeWhile_append_of_pos all, List.takeWhile_cons_of_neg (by decide),
        List.append_nil]
    have back : (whole ++ 'e' :: behind).dropWhile Char.isDigit = 'e' :: behind := by
      rw [List.dropWhile_append_of_pos all, List.dropWhile_cons_of_neg (by decide)]
    have digitsRead : natural? 10 (whole ++ []) = some digits := by
      rw [List.append_nil, natural?_of_all nonempty all, value]
    rw [decimal?]
    simp only [front, back]
    split
    · rename_i digits' e' isDigits isExponent
      obtain rfl : digits = digits' := Option.some.inj (digitsRead.symm.trans isDigits)
      obtain rfl : k = e' := Option.some.inj (exponent.symm.trans isExponent)
      exact congrArg (Binary64.ofDecimal negative digits) (sub_zero k)
    · rename_i nowhere
      exact absurd exponent (nowhere digits k digitsRead)

theorem integer?_eq_none (h : IsText digits k body) (negative : Bool) :
    integer? (signed negative body) = none := by
  have none := h.magnitude?_eq_none (signed negative body)
  obtain ⟨c, d, rest, rfl, digit, -⟩ := h.start
  rw [integer?_signed digit, none]
  rfl

/-- A number is meant by such a text that is read as the number. -/
theorem untagged_eq (h : IsText digits k body) {x : Binary64}
    (read : Binary64.ofDecimal x.negative digits k = some x) :
    untagged (signed x.negative body) = .ok (.number (.float x)) := by
  have decimal := h.decimal?_eq x.negative
  have proper := h.hasLeadingZero_eq_false
  have none := h.magnitude?_eq_none (signed x.negative body)
  obtain ⟨c, d, rest, rfl, digit, -⟩ := h.start
  have nonempty : (signed x.negative (c :: d :: rest)).isEmpty = false := by
    unfold signed
    split <;> rfl
  rw [untagged, nonempty, isNull_signed digit, Bool.or_self, if_neg Bool.false_ne_true,
    bool?_signed digit, integerValue?, integer?_signed digit, none, Option.map_none,
    hasLeadingZero_signed digit, proper, if_neg Bool.false_ne_true, float?_signed digit, decimal,
    read]
  rfl

end IsText

theorem exponent?_exponentChars (layout : Decimal.Layout) (x : ℤ) :
    exponent? (Decimal.exponentChars layout x) = some x := by
  have read : natural? 10 (Decimal.digitChars x.natAbs) = some x.natAbs := by
    rw [Decimal.digitChars, natural?_of_all Nat.toDigits_ne_nil fun c member =>
      Nat.isDigit_of_mem_toDigits (by norm_num) (by norm_num) member, Nat.ofDigitChars_ten_toDigits]
  unfold Decimal.exponentChars
  split_ifs with below plus
  · change Option.map (fun n : ℤ => -n) ((natural? 10 (Decimal.digitChars x.natAbs)).bind
      fun n => some (n : ℤ)) = some x
    rw [read]
    exact congrArg some (by omega : -(x.natAbs : ℤ) = x)
  · change Option.map Int.ofNat (natural? 10 (Decimal.digitChars x.natAbs)) = some x
    rw [read]
    exact congrArg some (by omega : (x.natAbs : ℤ) = x)
  · obtain ⟨c, rest, digits, digit, -⟩ := exists_cons_toDigits x.natAbs
    have number : exponent? ('e' :: Decimal.digitChars x.natAbs)
        = (natural? 10 (Decimal.digitChars x.natAbs)).map Int.ofNat := by
      have plus := ne_of_isDigit digit (by decide : '+'.isDigit = false)
      have minus := ne_of_isDigit digit (by decide : '-'.isDigit = false)
      simp [exponent?, Decimal.digitChars, digits, plus, minus]
    rw [number, read]
    exact congrArg some (by omega : (x.natAbs : ℤ) = x)

/-- A text with a point and no exponent. -/
theorem IsText.positional {digits : ℕ} {k : ℤ} (whole fraction : List Char) (nonempty : whole ≠ [])
    (all : ∀ c ∈ whole ++ fraction, c.isDigit)
    (value : Nat.ofDigitChars 10 (whole ++ fraction) 0 = digits) (scale : k = -fraction.length) :
    IsText digits k (whole ++ '.' :: fraction) := by
  have text := IsText.point nonempty all (rfl : exponent? [] = some 0) value
    (scale.trans (zero_sub _).symm)
  rwa [List.append_nil] at text

/-- A decimal is laid out as a text of its ratio. -/
theorem exists_isText (layout : Decimal.Layout) (d : Decimal) :
    ∃ digits k, IsText digits k (d.chars layout) ∧ (digits : ℚ) * 10 ^ k = d.value := by
  have all : ∀ c ∈ Nat.toDigits 10 d.digits, c.isDigit := fun c member =>
    Nat.isDigit_of_mem_toDigits (by norm_num) (by norm_num) member
  have zeros (n : ℕ) : ∀ c ∈ List.replicate n '0', c.isDigit := fun c member =>
    List.eq_of_mem_replicate member ▸ rfl
  have value : Nat.ofDigitChars 10 (Nat.toDigits 10 d.digits) 0 = d.digits :=
    Nat.ofDigitChars_ten_toDigits
  have nonempty : Nat.toDigits 10 d.digits ≠ [] := Nat.toDigits_ne_nil
  unfold Decimal.chars Decimal.digitChars
  dsimp only
  generalize Nat.toDigits 10 d.digits = ds at *
  split_ifs with isZero whole inside small
  · refine ⟨0, -1, .positional ['0'] ['0'] (by simp) (by simp) rfl rfl, ?_⟩
    simp [Decimal.value, isZero]
  · -- zeros behind the digits
    refine ⟨d.digits * 10 ^ (d.exponent.toNat + 1), -1, ?_, ?_⟩
    · refine .positional (ds ++ List.replicate d.exponent.toNat '0') ['0'] (by simp [nonempty])
        (List.forall_mem_append.2 ⟨List.forall_mem_append.2 ⟨all, zeros _⟩, zeros 1⟩) ?_ rfl
      rw [Nat.ofDigitChars_append, Nat.ofDigitChars_append, value,
        Nat.ofDigitChars_replicate_zero, Nat.ofDigitChars_cons, Nat.ofDigitChars_nil]
      simp
      ring
    · rw [Decimal.value, Nat.cast_mul, Nat.cast_pow, Nat.cast_ofNat, mul_assoc, ← zpow_natCast,
        ← zpow_add₀ (by norm_num)]
      congr 2
      omega
  · -- the point among the digits
    refine ⟨d.digits, d.exponent, .positional _ _ ?_ ?_ ?_ ?_, rfl⟩
    · have some' : (ds.length + d.exponent).toNat ≠ 0 := by omega
      simpa [nonempty] using some'
    · rwa [List.take_append_drop]
    · rwa [List.take_append_drop]
    · rw [List.length_drop]
      omega
  · -- zeros between the point and the digits
    refine ⟨d.digits, d.exponent, .positional ['0'] _ (by simp) ?_ ?_ ?_, rfl⟩
    · exact List.forall_mem_append.2 ⟨zeros 1, List.forall_mem_append.2 ⟨zeros _, all⟩⟩
    · rw [Nat.ofDigitChars_append, Nat.ofDigitChars_append, Nat.ofDigitChars_cons,
        Nat.ofDigitChars_nil, Nat.ofDigitChars_replicate_zero]
      simpa using value
    · rw [List.length_append, List.length_replicate]
      push_cast
      omega
  · -- an exponent
    refine ⟨d.digits, d.exponent, ?_, rfl⟩
    have exponent := exponent?_exponentChars layout (ds.length + d.exponent - 1)
    rcases ds with _ | ⟨c, _ | ⟨c', rest⟩⟩
    · exact absurd rfl nonempty
    · have mark : ∃ behind, Decimal.exponentChars layout (([c].length : ℤ)
          + d.exponent - 1) = 'e' :: behind := by
        unfold Decimal.exponentChars
        split_ifs <;> exact ⟨_, rfl⟩
      obtain ⟨behind, mark⟩ := mark
      dsimp only
      rw [mark] at exponent ⊢
      refine IsText.exponent (by simp) all ?_ value
      rw [exponent]
      simp
    · refine @IsText.point _ _ [c] (c' :: rest) _ _ (by simp) all exponent value ?_
      simp
      ring

/-- **A binary number is read as it was written.** -/
theorem untagged_chars (layout : Decimal.Layout) (x : Binary64) :
    untagged (x.chars layout) = .ok (.number (.float x)) := by
  obtain ⟨digits, k, text, same⟩ := exists_isText layout x.shortest
  have read := text.untagged_eq (x.ofDecimal_of_eq_shortest same)
  rwa [signed] at read

end SchemaBundle.Yaml.Core
