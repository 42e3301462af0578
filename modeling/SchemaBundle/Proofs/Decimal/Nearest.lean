import Mathlib.Algebra.Order.Field.Power
import Mathlib.Tactic.FieldSimp
import Mathlib.Tactic.Linarith
import Mathlib.Tactic.Positivity
import Mathlib.Tactic.Ring
import SchemaBundle.Decimal.Shortest

/-!
# What rounds to a binary number

The ratios that round to `m · 2 ^ e` form an interval around it (`RoundsTo`): up to halfway to either
neighbour, with the ends if `m` is even. Below a power of two the neighbour is half as far. A ratio
of natural numbers in the interval is rounded so by `Binary64.nearest`
(`Binary64.nearest_of_roundsTo`), and a decimal in it is read so (`Binary64.ofDecimal_of_roundsTo`).
-/

namespace SchemaBundle

/-! ## Powers with integer exponents -/

theorem zpow_eq_div_toNat {b : ℕ} (hb : b ≠ 0) (k : ℤ) :
    (b : ℚ) ^ k = (b : ℚ) ^ k.toNat / (b : ℚ) ^ (-k).toNat := by
  have hb' : (b : ℚ) ≠ 0 := by exact_mod_cast hb
  rw [← zpow_natCast, ← zpow_natCast, ← zpow_sub₀ hb']
  congr 1
  omega

theorem two_pow_le_ten_pow (n : ℕ) : (2 : ℚ) ^ (3 * n) ≤ 10 ^ n := by
  rw [pow_mul]
  exact pow_le_pow_left₀ (by norm_num) (by norm_num) n

theorem ten_zpow_neg_le (n : ℕ) : (10 : ℚ) ^ (-n : ℤ) ≤ 2 ^ (-(3 * n : ℕ) : ℤ) := by
  rw [zpow_neg, zpow_neg, zpow_natCast, zpow_natCast]
  exact inv_anti₀ (by positivity) (two_pow_le_ten_pow n)

/-! ## The interval -/

/-- The distance from `m` to the lower end of its interval, in units of `2 ^ e`. -/
def lowerGap (m : ℕ) (e : ℤ) : ℚ :=
  if m = 2 ^ 52 ∧ -1074 < e then 1 / 4 else 1 / 2

/-- A ratio rounds to `m · 2 ^ e`. -/
structure RoundsTo (m : ℕ) (e : ℤ) (q : ℚ) : Prop where
  lower : (m - lowerGap m e) * 2 ^ e ≤ q
  upper : q ≤ (m + 1 / 2) * 2 ^ e
  /-- The ends belong to even numbers. -/
  proper : m % 2 = 1 → (m - lowerGap m e) * 2 ^ e < q ∧ q < (m + 1 / 2) * 2 ^ e

theorem lowerGap_le (m : ℕ) (e : ℤ) : lowerGap m e ≤ 1 / 2 := by
  unfold lowerGap
  split <;> norm_num

namespace RoundsTo

variable {m : ℕ} {e : ℤ} {q : ℚ}

theorem of_lt (lower : (m - lowerGap m e) * 2 ^ e < q) (upper : q < (m + 1 / 2) * 2 ^ e) :
    RoundsTo m e q :=
  ⟨lower.le, upper.le, fun _ => ⟨lower, upper⟩⟩

theorem half_le (h : RoundsTo m e q) : (m - 1 / 2) * 2 ^ e ≤ q := by
  have power : (0 : ℚ) < 2 ^ e := by positivity
  have gap := lowerGap_le m e
  refine le_trans ?_ h.lower
  gcongr

theorem pos (h : RoundsTo m e q) (positive : 0 < m) : 0 < q := by
  have power : (0 : ℚ) < 2 ^ e := by positivity
  have one : (1 : ℚ) ≤ m := by exact_mod_cast positive
  refine lt_of_lt_of_le ?_ h.half_le
  have half : (0 : ℚ) < m - 1 / 2 := by linarith
  positivity

end RoundsTo

/-! ## Rounding to the nearest -/

namespace Binary64

/-- The natural number that is nearest to a quotient, and even if two are. -/
theorem roundHalfEven_eq {num den m : ℕ} (positive : 0 < den)
    (lower : den * (2 * m) ≤ 2 * num + den) (upper : 2 * num ≤ den * (2 * m) + den)
    (proper : m % 2 = 1 → den * (2 * m) < 2 * num + den ∧ 2 * num < den * (2 * m) + den) :
    roundHalfEven num den = m := by
  have cut : den * (num / den) + num % den = num := Nat.div_add_mod num den
  have small : num % den < den := Nat.mod_lt _ positive
  unfold roundHalfEven
  dsimp only
  generalize num / den = q at *
  generalize num % den = r at *
  have le : q ≤ m := by
    by_contra above
    nlinarith [Nat.mul_le_mul_left den (Nat.succ_le_of_lt (not_le.1 above))]
  have ge : m ≤ q + 1 := by
    by_contra below
    nlinarith [Nat.mul_le_mul_left den (Nat.succ_le_of_lt (not_le.1 below))]
  rcases Nat.eq_or_lt_of_le le with rfl | lt
  · -- the number itself
    have half : 2 * r ≤ den := by nlinarith
    have tie : 2 * r = den → q % 2 ≠ 1 := by
      intro tie odd
      obtain ⟨-, strict⟩ := proper odd
      nlinarith
    rw [if_neg (by omega)]
  · -- the number before it
    obtain rfl : m = q + 1 := by omega
    have half : den ≤ 2 * r := by nlinarith
    have tie : 2 * r = den → q % 2 = 1 := by
      intro tie
      by_contra even
      obtain ⟨strict, -⟩ := proper (by omega)
      nlinarith
    rw [if_pos (by omega)]

/-- A ratio scaled down is the ratio divided by the power. -/
theorem scaleDown_eq (num : ℕ) {den : ℕ} (positive : 0 < den) (e : ℤ) :
    0 < (scaleDown num den e).2 ∧
      ((scaleDown num den e).1 : ℚ) / (scaleDown num den e).2 = num / den / 2 ^ e := by
  have power := zpow_eq_div_toNat two_ne_zero e
  have denominator : (den : ℚ) ≠ 0 := by exact_mod_cast positive.ne'
  refine ⟨Nat.mul_pos positive (Nat.pow_pos two_pos), ?_⟩
  simp only [scaleDown, Nat.pow_eq, Nat.cast_mul, Nat.cast_pow]
  rw [show ((2 : ℕ) : ℚ) = 2 by norm_num] at power ⊢
  rw [power]
  field_simp

/-- The exponent at which a ratio has 53 bits before the point. -/
theorem exists_fits {num den : ℕ} (hn : 0 < num) (hd : 0 < den) :
    ∃ t : ℤ, fittingExponent num den = max (-1074) t ∧
      (2 : ℚ) ^ 52 * 2 ^ t ≤ num / den ∧ (num : ℚ) / den < 2 ^ 53 * 2 ^ t := by
  have two : (2 : ℚ) ≠ 0 := two_ne_zero
  have denominator : (0 : ℚ) < den := by exact_mod_cast hd
  obtain ⟨e, isE⟩ : ∃ e : ℤ, e = (num.log2 : ℤ) - den.log2 - 53 := ⟨_, rfl⟩
  have power : (0 : ℚ) < 2 ^ e := by positivity
  -- both logarithms are off by less than one
  have numLower : (2 : ℚ) ^ num.log2 ≤ num := by exact_mod_cast Nat.log2_self_le hn.ne'
  have numUpper : (num : ℚ) < 2 ^ (num.log2 + 1) := by exact_mod_cast Nat.lt_log2_self
  have denLower : (2 : ℚ) ^ den.log2 ≤ den := by exact_mod_cast Nat.log2_self_le hd.ne'
  have denUpper : (den : ℚ) < 2 ^ (den.log2 + 1) := by exact_mod_cast Nat.lt_log2_self
  have shift : (2 : ℚ) ^ num.log2 = 2 ^ 53 * 2 ^ e * 2 ^ den.log2 := by
    rw [isE, ← zpow_natCast, ← zpow_natCast, ← zpow_natCast, ← zpow_add₀ two, ← zpow_add₀ two]
    congr 1
    push_cast
    ring
  have lower : (2 : ℚ) ^ 52 * 2 ^ e ≤ num / den := by
    rw [le_div_iff₀ denominator]
    have bound := mul_le_mul_of_nonneg_left denUpper.le
      (by positivity : (0 : ℚ) ≤ 2 ^ 52 * 2 ^ e)
    rw [pow_succ (2 : ℚ) den.log2] at bound
    linarith
  have upper : (num : ℚ) / den < 2 ^ 54 * 2 ^ e := by
    rw [div_lt_iff₀ denominator]
    have bound := mul_le_mul_of_nonneg_left denLower (by positivity : (0 : ℚ) ≤ 2 ^ 54 * 2 ^ e)
    rw [pow_succ, shift] at numUpper
    linarith
  obtain ⟨positive, ratio⟩ := scaleDown_eq num hd e
  have quotient : (scaleDown num den e).1 / (scaleDown num den e).2 < 2 ^ 53 ↔
      (num : ℚ) / den < 2 ^ 53 * 2 ^ e := by
    rw [Nat.div_lt_iff_lt_mul positive, ← div_lt_iff₀ power, ← ratio,
      div_lt_iff₀ (by exact_mod_cast positive)]
    exact_mod_cast Iff.rfl
  unfold fittingExponent
  dsimp only
  rw [← isE, Nat.pow_eq]
  by_cases below : (num : ℚ) / den < 2 ^ 53 * 2 ^ e
  · exact ⟨e, by rw [if_pos (quotient.2 below)], lower, below⟩
  · refine ⟨e + 1, by rw [if_neg (mt quotient.1 below)], ?_, ?_⟩
    · rw [zpow_add_one₀ two]
      linarith
    · rw [zpow_add_one₀ two]
      linarith

/-- The fitting exponent of a ratio that rounds to `m · 2 ^ e` is `e`. Only a ratio just below a power
of two has the exponent before. -/
theorem fittingExponent_of_roundsTo {m num den : ℕ} {e : ℤ} (canonical : CanonicalBinary64 m e)
    (hn : 0 < num) (hd : 0 < den) (rounds : RoundsTo m e (num / den)) :
    fittingExponent num den = e ∨
      fittingExponent num den = e - 1 ∧ m = 2 ^ 52 ∧ -1074 < e ∧
        (num : ℚ) / den < 2 ^ 52 * 2 ^ e := by
  obtain ⟨small, least, -, full⟩ := canonical
  rw [Nat.pow_eq] at small full
  have two : (2 : ℚ) ≠ 0 := two_ne_zero
  have one : (1 : ℚ) < 2 := one_lt_two
  have power : (0 : ℚ) < 2 ^ e := by positivity
  obtain ⟨t, fitting, lower, upper⟩ := exists_fits hn hd
  rw [fitting]
  have small' : (m : ℚ) + 1 ≤ 2 ^ 53 := by exact_mod_cast small
  have le : t ≤ e := by
    have bound : (2 : ℚ) ^ t < 2 ^ (e + 1) := by
      rw [zpow_add_one₀ two]
      have top := mul_le_mul_of_nonneg_right small' power.le
      have high := rounds.upper
      linarith
    have := (zpow_lt_zpow_iff_right₀ one).1 bound
    omega
  have fits (enough : (2 : ℚ) ^ 52 * 2 ^ e ≤ num / den) : max (-1074) t = e := by
    have bound : (2 : ℚ) ^ e < 2 ^ (t + 1) := by
      rw [zpow_add_one₀ two]
      linarith
    have := (zpow_lt_zpow_iff_right₀ one).1 bound
    omega
  rcases full with full | full
  · rcases Nat.eq_or_lt_of_le full with same | above
    · by_cases enough : (2 : ℚ) ^ 52 * 2 ^ e ≤ num / den
      · exact .inl (fits enough)
      rcases least.eq_or_lt with first | later
      · exact .inl (by omega)
      · refine .inr ⟨?_, same.symm, later, not_le.1 enough⟩
        have bound : (2 : ℚ) ^ e < 2 ^ (t + 2) := by
          rw [zpow_add₀ two]
          have low := rounds.half_le
          rw [← same] at low
          push_cast at low
          linarith
        have := (zpow_lt_zpow_iff_right₀ one).1 bound
        have bound' : (2 : ℚ) ^ t < 2 ^ e := by linarith
        have := (zpow_lt_zpow_iff_right₀ one).1 bound'
        omega
    · refine .inl (fits ?_)
      have above' : (2 : ℚ) ^ 52 + 1 ≤ m := by exact_mod_cast above
      have low := rounds.half_le
      have bottom := mul_le_mul_of_nonneg_right above' power.le
      linarith
  · exact .inl (by omega)

/-- A natural number near a quotient, said of the ratio. -/
theorem roundHalfEven_of_ratio {num den m : ℕ} (positive : 0 < den)
    (lower : (m : ℚ) - 1 / 2 ≤ num / den) (upper : (num : ℚ) / den ≤ m + 1 / 2)
    (proper : m % 2 = 1 → (m : ℚ) - 1 / 2 < num / den ∧ (num : ℚ) / den < m + 1 / 2) :
    roundHalfEven num den = m := by
  have denominator : (0 : ℚ) < den := by exact_mod_cast positive
  rw [le_div_iff₀ denominator] at lower
  rw [div_le_iff₀ denominator] at upper
  rw [lt_div_iff₀ denominator, div_lt_iff₀ denominator] at proper
  refine roundHalfEven_eq positive ?_ ?_ fun odd => ⟨?_, ?_⟩
  · have : (den : ℚ) * (2 * m) ≤ 2 * num + den := by linarith
    exact_mod_cast this
  · have : 2 * (num : ℚ) ≤ den * (2 * m) + den := by linarith
    exact_mod_cast this
  · have : (den : ℚ) * (2 * m) < 2 * num + den := by linarith [(proper odd).1]
    exact_mod_cast this
  · have : 2 * (num : ℚ) < den * (2 * m) + den := by linarith [(proper odd).2]
    exact_mod_cast this

/-- Scaled to the exponent of the number, a ratio is rounded to the significand. -/
theorem roundHalfEven_of_roundsTo {num den m : ℕ} {e : ℤ} (hd : 0 < den)
    (rounds : RoundsTo m e (num / den)) :
    roundHalfEven (scaleDown num den e).1 (scaleDown num den e).2 = m := by
  have power : (0 : ℚ) < 2 ^ e := by positivity
  obtain ⟨scaled, ratio⟩ := scaleDown_eq num hd e
  refine roundHalfEven_of_ratio scaled ?_ ?_ fun odd => ?_
  · rw [ratio, le_div_iff₀ power]
    exact rounds.half_le
  · rw [ratio, div_le_iff₀ power]
    exact rounds.upper
  · obtain ⟨strict, strict'⟩ := rounds.proper odd
    rw [ratio, lt_div_iff₀ power, div_lt_iff₀ power]
    refine ⟨lt_of_le_of_lt ?_ strict, strict'⟩
    have gap := lowerGap_le m e
    gcongr

/-- Just below a power of two the ratio is scaled to the exponent before, and is rounded up. -/
theorem roundHalfEven_of_below {num den m : ℕ} {e : ℤ} (hd : 0 < den)
    (rounds : RoundsTo m e (num / den)) (isPower : m = 2 ^ 52) (later : -1074 < e)
    (below : (num : ℚ) / den < 2 ^ 52 * 2 ^ e) :
    roundHalfEven (scaleDown num den (e - 1)).1 (scaleDown num den (e - 1)).2 = 2 ^ 53 := by
  have half : (2 : ℚ) ^ (e - 1) = 2 ^ e / 2 := zpow_sub_one₀ two_ne_zero e
  have power : (0 : ℚ) < 2 ^ e := by positivity
  obtain ⟨scaled, ratio⟩ := scaleDown_eq num hd (e - 1)
  have low := rounds.lower
  rw [lowerGap, if_pos ⟨isPower, later⟩, isPower] at low
  push_cast at low
  refine roundHalfEven_of_ratio scaled ?_ ?_ fun odd => ?_
  · rw [ratio, half, le_div_iff₀ (by positivity)]
    push_cast
    linarith
  · rw [ratio, half, div_le_iff₀ (by positivity)]
    push_cast
    linarith
  · norm_num at odd

/-- A ratio in the interval of a number is rounded to it. -/
theorem nearest_of_roundsTo {x : Binary64} {num den : ℕ} (positive : 0 < x.significand)
    (hd : 0 < den) (rounds : RoundsTo x.significand x.exponent (num / den)) :
    nearest x.negative num den = some x := by
  obtain ⟨negative, m, e, canonical⟩ := x
  dsimp only at *
  have hn : 0 < num := by
    have q := rounds.pos positive
    by_contra none
    rw [Nat.eq_zero_of_not_pos none] at q
    simp at q
  have cases := fittingExponent_of_roundsTo canonical hn hd rounds
  unfold nearest
  rw [if_neg hn.ne']
  dsimp only
  rcases cases with same | ⟨before, isPower, later, below⟩
  · have small : m ≠ Nat.pow 2 53 := canonical.1.ne
    rw [same, roundHalfEven_of_roundsTo hd rounds, if_neg small, ofParts?, dif_pos canonical]
  · simp only [Nat.pow_eq]
    rw [before, roundHalfEven_of_below hd rounds isPower later below, if_pos rfl, sub_add_cancel,
      ← isPower, ofParts?, dif_pos canonical]

/-! ## Reading a decimal -/

/-- The exponent of a decimal in the interval of a number is not too large for the reader. -/
theorem exponent_le_of_roundsTo {m digits : ℕ} {e k : ℤ} (canonical : CanonicalBinary64 m e)
    (nonzero : digits ≠ 0) (rounds : RoundsTo m e (digits * 10 ^ k)) : k ≤ 400 := by
  obtain ⟨small, -, greatest, -⟩ := canonical
  rw [Nat.pow_eq] at small
  have ten : (0 : ℚ) < 10 ^ k := by positivity
  have one : (1 : ℚ) ≤ digits := by exact_mod_cast Nat.one_le_iff_ne_zero.2 nonzero
  by_contra far
  have small' : (m : ℚ) + 1 / 2 ≤ 2 ^ 53 := by
    have : (m : ℚ) + 1 ≤ 2 ^ 53 := by exact_mod_cast small
    linarith
  have bound : (2 : ℚ) ^ 1203 ≤ 2 ^ (1024 : ℤ) := calc
    (2 : ℚ) ^ 1203 ≤ 10 ^ 401 := two_pow_le_ten_pow 401
    _ = 10 ^ (401 : ℤ) := (zpow_natCast _ 401).symm
    _ ≤ 10 ^ k := zpow_le_zpow_right₀ (by norm_num) (by omega)
    _ ≤ digits * 10 ^ k := le_mul_of_one_le_left ten.le one
    _ ≤ (m + 1 / 2) * 2 ^ e := rounds.upper
    _ ≤ 2 ^ 53 * 2 ^ (971 : ℤ) := by
      have top : (2 : ℚ) ^ e ≤ 2 ^ (971 : ℤ) := zpow_le_zpow_right₀ one_le_two greatest
      gcongr
    _ = 2 ^ (1024 : ℤ) := by
      rw [← zpow_natCast, ← zpow_add₀ two_ne_zero]
      rfl
  rw [← zpow_natCast, zpow_le_zpow_iff_right₀ one_lt_two] at bound
  norm_num at bound

/-- Nor is it too small, given how many digits there are. -/
theorem le_exponent_of_roundsTo {m digits : ℕ} {e k : ℤ} (canonical : CanonicalBinary64 m e)
    (positive : 0 < m) (rounds : RoundsTo m e (digits * 10 ^ k)) :
    -(400 + (digits.log2 : ℤ)) ≤ k := by
  have least := canonical.2.1
  by_contra far
  have few : (digits : ℚ) ≤ 2 * 10 ^ digits.log2 := calc
    (digits : ℚ) ≤ 2 ^ (digits.log2 + 1) := by exact_mod_cast (Nat.lt_log2_self (n := digits)).le
    _ = 2 * 2 ^ digits.log2 := pow_succ' 2 _
    _ ≤ 2 * 10 ^ digits.log2 := by gcongr; norm_num
  have half : (1 : ℚ) / 2 ≤ m - 1 / 2 := by
    have : (1 : ℚ) ≤ m := by exact_mod_cast positive
    linarith
  have bound : (2 : ℚ) ^ (-1075 : ℤ) ≤ 2 * 2 ^ (-1203 : ℤ) := calc
    (2 : ℚ) ^ (-1075 : ℤ) = 1 / 2 * 2 ^ (-1074 : ℤ) := by
      rw [show (-1075 : ℤ) = -1074 - 1 by norm_num, zpow_sub_one₀ two_ne_zero]
      ring
    _ ≤ (m - 1 / 2) * 2 ^ e := by
      have bottom : (2 : ℚ) ^ (-1074 : ℤ) ≤ 2 ^ e := zpow_le_zpow_right₀ one_le_two least
      gcongr
    _ ≤ digits * 10 ^ k := rounds.half_le
    _ ≤ 2 * 10 ^ digits.log2 * 10 ^ (-(401 + (digits.log2 : ℤ))) := by
      have tiny : (10 : ℚ) ^ k ≤ 10 ^ (-(401 + (digits.log2 : ℤ))) :=
        zpow_le_zpow_right₀ (by norm_num) (by omega)
      gcongr
    _ = 2 * 10 ^ (-401 : ℤ) := by
      rw [mul_assoc, ← zpow_natCast, ← zpow_add₀ (by norm_num)]
      congr 2
      ring
    _ ≤ 2 * 2 ^ (-1203 : ℤ) := mul_le_mul_of_nonneg_left (ten_zpow_neg_le 401) zero_le_two
  rw [← zpow_one_add₀ two_ne_zero, zpow_le_zpow_iff_right₀ one_lt_two] at bound
  norm_num at bound

/-- A decimal in the interval of a number has an exponent that the reader takes. -/
theorem exponent_of_roundsTo {m digits : ℕ} {e k : ℤ} (canonical : CanonicalBinary64 m e)
    (positive : 0 < m) (rounds : RoundsTo m e (digits * 10 ^ k)) :
    digits ≠ 0 ∧ k ≤ 400 ∧ -(400 + (digits.log2 : ℤ)) ≤ k := by
  have nonzero : digits ≠ 0 := by
    rintro rfl
    have q := rounds.pos positive
    simp at q
  exact ⟨nonzero, exponent_le_of_roundsTo canonical nonzero rounds,
    le_exponent_of_roundsTo canonical positive rounds⟩

/-- **A decimal in the interval of a number is read as the number.** -/
theorem ofDecimal_of_roundsTo {x : Binary64} (positive : 0 < x.significand) {digits : ℕ} {k : ℤ}
    (rounds : RoundsTo x.significand x.exponent (digits * 10 ^ k)) :
    ofDecimal x.negative digits k = some x := by
  obtain ⟨nonzero, notHuge, notTiny⟩ := exponent_of_roundsTo x.canonical positive rounds
  rw [ofDecimal, if_neg nonzero, if_neg (by omega), if_neg (by omega)]
  refine nearest_of_roundsTo positive (Nat.pow_pos (by norm_num)) ?_
  have power := zpow_eq_div_toNat (by norm_num : (10 : ℕ) ≠ 0) k
  simp only [Nat.pow_eq]
  push_cast at power ⊢
  rwa [mul_div_assoc, ← power]

end Binary64

end SchemaBundle
