import SchemaBundle.Proofs.Decimal.Nearest

/-!
# The shortest decimal reads back

On a grid of steps of `10 ^ k` the points next to a number are a decimal of the step below it and the
next one; one of the two rounds to the number if the step is narrower than the interval
(`Decimal.pick?_ne_none`). With seventeen digits it is, so the search for few digits ends in a decimal
that rounds to the number (`Binary64.roundsTo_shortest`), and reading it gives the number
(`Binary64.ofDecimal_of_eq_shortest`).
-/

namespace SchemaBundle

/-! ## Grids -/

namespace Decimal

/-- A decimal as a ratio. -/
def value (d : Decimal) : ℚ :=
  d.digits * 10 ^ d.exponent

theorem commonScale_eq (a : ℕ) (k : ℤ) (b : ℕ) (f : ℤ) : ∃ c : ℚ, 0 < c ∧
    ((commonScale a k b f).1 : ℚ) = a * 10 ^ k * c ∧
    ((commonScale a k b f).2 : ℚ) = b * 2 ^ f * c := by
  have ten := zpow_eq_div_toNat (by norm_num : (10 : ℕ) ≠ 0) k
  have two := zpow_eq_div_toNat two_ne_zero f
  push_cast at ten two
  refine ⟨2 ^ (-f).toNat * 10 ^ (-k).toNat, by positivity, ?_, ?_⟩
  · rw [ten]
    simp only [commonScale, Nat.pow_eq]
    push_cast
    field_simp
  · rw [two]
    simp only [commonScale, Nat.pow_eq]
    push_cast
    field_simp

theorem commonScale_le_iff (a : ℕ) (k : ℤ) (b : ℕ) (f : ℤ) :
    (commonScale a k b f).1 ≤ (commonScale a k b f).2 ↔ (a : ℚ) * 10 ^ k ≤ b * 2 ^ f := by
  obtain ⟨c, positive, left, right⟩ := commonScale_eq a k b f
  rw [← @Nat.cast_le ℚ, left, right, mul_le_mul_iff_left₀ positive]

theorem le_commonScale_iff (a : ℕ) (k : ℤ) (b : ℕ) (f : ℤ) :
    (commonScale a k b f).2 ≤ (commonScale a k b f).1 ↔ (b : ℚ) * 2 ^ f ≤ a * 10 ^ k := by
  obtain ⟨c, positive, left, right⟩ := commonScale_eq a k b f
  rw [← @Nat.cast_le ℚ, left, right, mul_le_mul_iff_left₀ positive]

theorem commonScale_lt_iff (a : ℕ) (k : ℤ) (b : ℕ) (f : ℤ) :
    (commonScale a k b f).1 < (commonScale a k b f).2 ↔ (a : ℚ) * 10 ^ k < b * 2 ^ f := by
  rw [← not_le, le_commonScale_iff, not_le]

theorem lt_commonScale_iff (a : ℕ) (k : ℤ) (b : ℕ) (f : ℤ) :
    (commonScale a k b f).2 < (commonScale a k b f).1 ↔ (b : ℚ) * 2 ^ f < a * 10 ^ k := by
  rw [← not_le, commonScale_le_iff, not_le]

/-- The test of a grid point asks whether it lies in the interval. -/
theorem readsBack_iff_roundsTo {a m : ℕ} {k e : ℤ} (positive : 0 < m) :
    readsBack a k m e = true ↔ RoundsTo m e (a * 10 ^ k) := by
  have quarter : (2 : ℚ) ^ (e - 2) = 2 ^ e / 4 := by
    rw [zpow_sub₀ two_ne_zero]
    norm_num
  have low : ((4 * m - (if m = Nat.pow 2 52 ∧ -1074 < e then 1 else 2) : ℕ) : ℚ) * 2 ^ (e - 2)
      = (m - lowerGap m e) * 2 ^ e := by
    rw [quarter, lowerGap, Nat.pow_eq, Nat.cast_sub (by split <;> omega)]
    split <;> (push_cast; ring)
  have high : ((4 * m + 2 : ℕ) : ℚ) * 2 ^ (e - 2) = (m + 1 / 2) * 2 ^ e := by
    rw [quarter]
    push_cast
    ring
  unfold readsBack
  dsimp only
  split
  · rename_i even
    rw [Bool.and_eq_true, decide_eq_true_iff, decide_eq_true_iff, le_commonScale_iff,
      commonScale_le_iff, low, high]
    exact ⟨fun h => ⟨h.1, h.2, fun odd => by omega⟩, fun h => ⟨h.lower, h.upper⟩⟩
  · rename_i odd
    rw [Bool.and_eq_true, decide_eq_true_iff, decide_eq_true_iff, lt_commonScale_iff,
      commonScale_lt_iff, low, high]
    exact ⟨fun h => ⟨h.1.le, h.2.le, fun _ => h⟩, fun h => h.proper (by omega)⟩

theorem floorAt_le (m : ℕ) (e k : ℤ) :
    (floorAt m e k : ℚ) * 10 ^ k ≤ m * 2 ^ e ∧ (m : ℚ) * 2 ^ e < (floorAt m e k + 1) * 10 ^ k := by
  have ten := zpow_eq_div_toNat (by norm_num : (10 : ℕ) ≠ 0) k
  have two := zpow_eq_div_toNat two_ne_zero e
  push_cast at ten two
  have power : (0 : ℚ) < 10 ^ k := by positivity
  obtain ⟨num, isNum⟩ : ∃ num, num = m * 2 ^ e.toNat * 10 ^ (-k).toNat := ⟨_, rfl⟩
  obtain ⟨den, isDen⟩ : ∃ den, den = 2 ^ (-e).toNat * 10 ^ k.toNat := ⟨_, rfl⟩
  have floor : floorAt m e k = num / den := by rw [isNum, isDen]; rfl
  have positive : 0 < den := by rw [isDen]; positivity
  have ratio : (m : ℚ) * 2 ^ e = num / den * 10 ^ k := by
    rw [isNum, isDen, ten, two]
    push_cast
    field_simp
  rw [floor, ratio, mul_le_mul_iff_left₀ power, mul_lt_mul_iff_left₀ power,
    le_div_iff₀ (by exact_mod_cast positive), div_lt_iff₀ (by exact_mod_cast positive)]
  constructor
  · exact_mod_cast Nat.div_mul_le_self num den
  · have above := Nat.lt_mul_div_succ num positive
    rw [mul_comm] at above
    exact_mod_cast above

/-- A point that is picked from a grid lies in the interval. -/
theorem roundsTo_of_pick? {m : ℕ} {e k : ℤ} {d : Decimal} (positive : 0 < m)
    (picked : pick? m e k = some d) : RoundsTo m e d.value := by
  unfold pick? at picked
  dsimp only at picked
  split at picked
  · rename_i low high
    obtain rfl := Option.some.inj picked
    rw [readsBack_iff_roundsTo positive] at low high
    dsimp only [value]
    split
    · exact high
    · exact low
  · rename_i low _
    obtain rfl := Option.some.inj picked
    exact (readsBack_iff_roundsTo positive).1 low
  · rename_i _ high
    obtain rfl := Option.some.inj picked
    exact (readsBack_iff_roundsTo positive).1 high
  · cases picked

/-- A grid that is fine enough has a point in the interval. -/
theorem pick?_ne_none {m : ℕ} {e k : ℤ} (canonical : CanonicalBinary64 m e) (positive : 0 < m)
    (fine : (10 : ℚ) ^ 16 * 10 ^ k ≤ m * 2 ^ e) : pick? m e k ≠ none := by
  intro none
  have two : (0 : ℚ) < 2 ^ e := by positivity
  obtain ⟨below, above⟩ := floorAt_le m e k
  have neither : ¬ RoundsTo m e (floorAt m e k * 10 ^ k) ∧
      ¬ RoundsTo m e ((floorAt m e k + 1 : ℕ) * 10 ^ k) := by
    rw [← readsBack_iff_roundsTo positive, ← readsBack_iff_roundsTo positive]
    unfold pick? at none
    dsimp only at none
    split at none <;> simp_all
  obtain ⟨notLow, notHigh⟩ := neither
  push_cast at notHigh
  rw [add_mul, one_mul] at above notHigh
  have gap : (0 : ℚ) < lowerGap m e := by
    unfold lowerGap
    split <;> norm_num
  -- both points lie outside, so the step is at least as wide as the interval
  have low : (floorAt m e k : ℚ) * 10 ^ k ≤ (m - lowerGap m e) * 2 ^ e :=
    not_lt.1 fun inside => notLow (.of_lt inside (by nlinarith))
  have high : (m + 1 / 2) * 2 ^ e ≤ (floorAt m e k : ℚ) * 10 ^ k + 10 ^ k :=
    not_lt.1 fun inside => notHigh (.of_lt (by nlinarith) inside)
  have wide : (10 : ℚ) ^ 16 * (lowerGap m e + 1 / 2) ≤ m := by
    refine le_of_mul_le_mul_right ?_ two
    linarith
  have small : (m : ℚ) < 2 ^ 53 := by exact_mod_cast canonical.1
  unfold lowerGap at wide
  split at wide
  · rename_i isPower
    rw [isPower.1] at wide
    norm_num at wide
  · norm_num at wide small
    linarith

/-! ## The search -/

/-- The leading digit of a number stands where its magnitude says. -/
theorem ten_pow_magnitude_le {m : ℕ} {e : ℤ} (canonical : CanonicalBinary64 m e)
    (positive : 0 < m) : (10 : ℚ) ^ (magnitude m e - 1) ≤ m * 2 ^ e := by
  obtain ⟨-, least, -⟩ := canonical
  obtain ⟨below, above⟩ := floorAt_le m e (-400)
  have one : (1 : ℚ) ≤ m := by exact_mod_cast positive
  have some' : floorAt m e (-400) ≠ 0 := by
    intro none
    have bound : (2 : ℚ) ^ (-1074 : ℤ) < 2 ^ (-1200 : ℤ) := calc
      (2 : ℚ) ^ (-1074 : ℤ) ≤ 2 ^ e := zpow_le_zpow_right₀ one_le_two least
      _ ≤ m * 2 ^ e := le_mul_of_one_le_left (by positivity) one
      _ < 10 ^ (-400 : ℤ) := by rwa [none, Nat.cast_zero, zero_add, one_mul] at above
      _ ≤ 2 ^ (-1200 : ℤ) := ten_zpow_neg_le 400
    rw [zpow_lt_zpow_iff_right₀ one_lt_two] at bound
    norm_num at bound
  have enough : 10 ^ (length (floorAt m e (-400)) - 1) ≤ floorAt m e (-400) := by
    have nonempty : 0 < length (floorAt m e (-400)) := Nat.length_toDigits_pos
    rcases Nat.eq_zero_or_pos (length (floorAt m e (-400)) - 1) with single | more
    · rw [single]
      omega
    · have few := (Nat.length_toDigits_le_iff (b := 10) (n := floorAt m e (-400))
        (by norm_num) more).not
      exact not_lt.1 (few.1 (by rw [← length]; omega))
  calc (10 : ℚ) ^ (magnitude m e - 1)
      = ((10 ^ (length (floorAt m e (-400)) - 1) : ℕ) : ℚ) * 10 ^ (-400 : ℤ) := by
        have nonempty : 0 < length (floorAt m e (-400)) := Nat.length_toDigits_pos
        rw [magnitude]
        generalize length (floorAt m e (-400)) = l at nonempty
        rw [Nat.cast_pow, Nat.cast_ofNat, ← zpow_natCast, ← zpow_add₀ (by norm_num),
          Nat.cast_pred nonempty]
        congr 1
        ring
    _ ≤ floorAt m e (-400) * 10 ^ (-400 : ℤ) := by gcongr
    _ ≤ m * 2 ^ e := below

/-- A search that comes to a grid with a point in the interval ends in such a point. -/
theorem roundsTo_search {m : ℕ} {e p : ℤ} (positive : 0 < m) {fuel count : ℕ}
    (found : ∃ n, n < fuel ∧ pick? m e (p - (count + n : ℕ)) ≠ none) :
    RoundsTo m e (search m e p fuel count).value := by
  induction fuel generalizing count with
  | zero => simp at found
  | succ fuel ih =>
    unfold search
    split
    · rename_i d picked
      exact roundsTo_of_pick? positive picked
    · rename_i none
      obtain ⟨n, bound, found⟩ := found
      cases n with
      | zero => exact absurd none found
      | succ n =>
        refine ih ⟨n, Nat.lt_of_succ_lt_succ bound, ?_⟩
        rwa [show count + 1 + n = count + (n + 1) by omega]

@[simp] theorem value_stripZeros (fuel : ℕ) (d : Decimal) : (stripZeros fuel d).value = d.value := by
  induction fuel generalizing d with
  | zero => rfl
  | succ fuel ih =>
    unfold stripZeros
    split
    · rename_i trailing
      rw [ih, value, value, zpow_add_one₀ (by norm_num)]
      have whole : ((d.digits / 10 : ℕ) : ℚ) * 10 = d.digits := by
        exact_mod_cast Nat.div_mul_cancel (Nat.dvd_of_mod_eq_zero trailing.2)
      rw [← whole]
      ring
    · rfl

end Decimal

namespace Binary64

/-- Seventeen digits are enough. -/
theorem roundsTo_shortest {x : Binary64} (positive : 0 < x.significand) :
    RoundsTo x.significand x.exponent x.shortest.value := by
  unfold shortest
  rw [if_neg positive.ne']
  dsimp only
  rw [Decimal.value_stripZeros]
  refine Decimal.roundsTo_search positive ⟨16, by norm_num, ?_⟩
  refine Decimal.pick?_ne_none x.canonical positive ?_
  refine le_of_eq_of_le ?_ (Decimal.ten_pow_magnitude_le x.canonical positive)
  rw [← zpow_natCast, ← zpow_add₀ (by norm_num)]
  congr 1
  push_cast
  ring

/-- **The shortest decimal reads back**, and so does any other way to write the same ratio. -/
theorem ofDecimal_of_eq_shortest (x : Binary64) {digits : ℕ} {k : ℤ}
    (same : (digits : ℚ) * 10 ^ k = x.shortest.value) : ofDecimal x.negative digits k = some x := by
  rcases Nat.eq_zero_or_pos x.significand with isZero | positive
  · rw [shortest, if_pos isZero, Decimal.value, Nat.cast_zero, zero_mul, mul_eq_zero,
      Nat.cast_eq_zero] at same
    have none : digits = 0 := same.resolve_right (by positivity)
    obtain ⟨negative, m, e, canonical⟩ := x
    obtain rfl : m = 0 := isZero
    obtain rfl : e = -1074 := canonical.2.2.2.resolve_left (by decide)
    rw [ofDecimal, if_pos none, zero]
  · exact ofDecimal_of_roundsTo positive (same ▸ roundsTo_shortest positive)

end Binary64

end SchemaBundle
