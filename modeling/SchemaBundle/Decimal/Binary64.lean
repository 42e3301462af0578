/-!
# Finite binary floating-point numbers

`Binary64` holds a finite number of the 64-bit binary format exactly, as a sign, a significand
and a power of two, in the one form that the format itself uses. `Binary64.nearest` rounds a
ratio of natural numbers to it, ties to the even significand, and `Binary64.ofDecimal` reads
`digits · 10 ^ exponent` through it.
-/

namespace SchemaBundle

/-- The pairs `(m, e)` that stand for a number `m · 2 ^ e` of the 64-bit format: the significand
has 53 bits, all of them used unless the exponent is the least one. -/
def CanonicalBinary64 (m : Nat) (e : Int) : Prop :=
  m < Nat.pow 2 53 ∧ -1074 ≤ e ∧ e ≤ 971 ∧ (Nat.pow 2 52 ≤ m ∨ e = -1074)

instance (m : Nat) (e : Int) : Decidable (CanonicalBinary64 m e) := by
  unfold CanonicalBinary64; infer_instance

/-- A finite number of the 64-bit binary format: `± significand · 2 ^ exponent`. -/
structure Binary64 where
  negative : Bool
  significand : Nat
  exponent : Int
  canonical : CanonicalBinary64 significand exponent
  deriving DecidableEq

namespace Binary64

/-- Zero of either sign. -/
def zero (negative : Bool) : Binary64 :=
  ⟨negative, 0, -1074, by decide⟩

instance : Inhabited Binary64 := ⟨zero false⟩

/-- Numeric equality: the two zeros are equal, and otherwise only a number equals itself. -/
def numEq (a b : Binary64) : Bool :=
  (a.significand == 0 && b.significand == 0) || decide (a = b)

theorem numEq_refl (a : Binary64) : numEq a a = true := by
  simp [numEq]

/-- The number with this significand and exponent, if it is one of the format. -/
def ofParts? (negative : Bool) (m : Nat) (e : Int) : Option Binary64 :=
  if h : CanonicalBinary64 m e then some ⟨negative, m, e, h⟩ else none

/-- `num / den` divided by `2 ^ e`, again as a ratio. -/
def scaleDown (num den : Nat) (e : Int) : Nat × Nat :=
  (num * Nat.pow 2 (-e).toNat, den * Nat.pow 2 e.toNat)

/-- The exponent at which `num / den` has a significand of 53 bits, but never less than the least
exponent of the format. -/
def fittingExponent (num den : Nat) : Int :=
  let e : Int := (num.log2 : Int) - den.log2 - 53
  let scaled := scaleDown num den e
  max (-1074) (if scaled.1 / scaled.2 < Nat.pow 2 53 then e else e + 1)

/-- The quotient rounded to the nearest natural number, a half to the even neighbour. -/
def roundHalfEven (num den : Nat) : Nat :=
  let q := num / den
  let r := num % den
  if den < 2 * r ∨ (2 * r = den ∧ q % 2 = 1) then q + 1 else q

/-- The number of the format nearest to `± num / den`, ties to the even significand; `none` when
it is beyond the largest finite number. -/
def nearest (negative : Bool) (num den : Nat) : Option Binary64 :=
  if num = 0 then
    some (zero negative)
  else
    let e := fittingExponent num den
    let scaled := scaleDown num den e
    let m := roundHalfEven scaled.1 scaled.2
    if m = Nat.pow 2 53 then ofParts? negative (Nat.pow 2 52) (e + 1) else ofParts? negative m e

/-- The number nearest to `± digits · 10 ^ exponent`; `none` when it overflows. An exponent far
outside the range of the format decides the answer without computing the power. -/
def ofDecimal (negative : Bool) (digits : Nat) (exponent : Int) : Option Binary64 :=
  if digits = 0 then
    some (zero negative)
  else if 400 < exponent then
    none
  else if exponent < -(400 + (digits.log2 : Int)) then
    some (zero negative)
  else
    nearest negative (digits * Nat.pow 10 exponent.toNat) (Nat.pow 10 (-exponent).toNat)

end Binary64

end SchemaBundle
