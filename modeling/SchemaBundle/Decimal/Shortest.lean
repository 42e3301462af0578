import SchemaBundle.Decimal.Binary64

/-!
# The fewest digits that read back

`Binary64.shortest` chooses, for a finite binary number, the decimal with the fewest digits among
those that round to it, and of several the nearest one. `Decimal.chars` lays such a
decimal out: positional for magnitudes from `10 ^ -5` up to `10 ^ 16`, with an exponent elsewhere.
-/

namespace SchemaBundle

/-- The decimal `digits · 10 ^ exponent`. -/
structure Decimal where
  digits : Nat
  exponent : Int
  deriving DecidableEq, Repr

namespace Decimal

/-- `a · 10 ^ k` and `b · 2 ^ f`, brought to integers by the same factor. -/
def commonScale (a : Nat) (k : Int) (b : Nat) (f : Int) : Nat × Nat :=
  (a * Nat.pow 10 k.toNat * Nat.pow 2 (-f).toNat, b * Nat.pow 2 f.toNat * Nat.pow 10 (-k).toNat)

/-- Whether `a · 10 ^ k` rounds to the number `m · 2 ^ e`. The reals that do form an interval from
halfway to the neighbour below to halfway to the neighbour above, with its ends exactly when `m`
is even; below a power of two the neighbour is half as far. -/
def readsBack (a : Nat) (k : Int) (m : Nat) (e : Int) : Bool :=
  let low := 4 * m - (if m = Nat.pow 2 52 ∧ -1074 < e then 1 else 2)
  let high := 4 * m + 2
  let below := commonScale a k low (e - 2)
  let above := commonScale a k high (e - 2)
  if m % 2 = 0 then
    decide (below.2 ≤ below.1) && decide (above.1 ≤ above.2)
  else
    decide (below.2 < below.1) && decide (above.1 < above.2)

/-- The greatest `a` with `a · 10 ^ k ≤ m · 2 ^ e`. -/
def floorAt (m : Nat) (e : Int) (k : Int) : Nat :=
  (m * Nat.pow 2 e.toNat * Nat.pow 10 (-k).toNat) / (Nat.pow 2 (-e).toNat * Nat.pow 10 k.toNat)

/-- The number of decimal digits of a natural number. -/
def length (n : Nat) : Nat :=
  (Nat.toDigits 10 n).length

/-- The `p` with `10 ^ (p - 1) ≤ m · 2 ^ e < 10 ^ p`, for a positive number of the format. -/
def magnitude (m : Nat) (e : Int) : Int :=
  (length (floorAt m e (-400)) : Int) - 400

/-- Of the two points `a` and `a + 1` of the grid of step `10 ^ k` around `m · 2 ^ e`, the one that
reads back; of two, the nearer, and at equal distance the even one. -/
def pick? (m : Nat) (e : Int) (k : Int) : Option Decimal :=
  let a := floorAt m e k
  let middle := commonScale (2 * a + 1) k m (e + 1)
  let up := middle.1 < middle.2 ∨ (middle.1 = middle.2 ∧ a % 2 = 1)
  match readsBack a k m e, readsBack (a + 1) k m e with
  | true, true => some ⟨if up then a + 1 else a, k⟩
  | true, false => some ⟨a, k⟩
  | false, true => some ⟨a + 1, k⟩
  | false, false => none

/-- Search the grids of `count`, `count + 1`, … digits for a point that reads back. -/
def search (m : Nat) (e : Int) (p : Int) : Nat → Nat → Decimal
  | 0, count => ⟨floorAt m e (p - count), p - count⟩
  | fuel + 1, count =>
    match pick? m e (p - count) with
    | some d => d
    | none => search m e p fuel (count + 1)

/-- The same decimal without trailing zeros in its digits. -/
def stripZeros : Nat → Decimal → Decimal
  | 0, d => d
  | fuel + 1, d =>
    if d.digits ≠ 0 ∧ d.digits % 10 = 0 then stripZeros fuel ⟨d.digits / 10, d.exponent + 1⟩
    else d

end Decimal

/-- The decimal of the fewest digits that reads back as the magnitude of `x`; seventeen digits
always do. -/
def Binary64.shortest (x : Binary64) : Decimal :=
  if x.significand = 0 then
    ⟨0, 0⟩
  else
    let p := Decimal.magnitude x.significand x.exponent
    Decimal.stripZeros 20 (Decimal.search x.significand x.exponent p 17 1)

/-- The layout of a decimal: whether a non-negative exponent is written with a plus sign. The rest
is fixed: positional up to sixteen digits before the point and four zeros after it, always with a
point or an exponent. -/
structure Decimal.Layout where
  plusSign : Bool

namespace Decimal

/-- The digits of a natural number as text. -/
def digitChars (n : Nat) : List Char :=
  Nat.toDigits 10 n

/-- The exponent mark with its number. -/
def exponentChars (layout : Layout) (x : Int) : List Char :=
  if x < 0 then 'e' :: '-' :: digitChars x.natAbs
  else if layout.plusSign then 'e' :: '+' :: digitChars x.natAbs
  else 'e' :: digitChars x.natAbs

/-- A decimal laid out as text. -/
def chars (layout : Layout) (d : Decimal) : List Char :=
  let ds := digitChars d.digits
  let point : Int := ds.length + d.exponent
  if d.digits = 0 then
    ['0', '.', '0']
  else if 0 ≤ d.exponent ∧ point ≤ 16 then
    ds ++ List.replicate d.exponent.toNat '0' ++ ['.', '0']
  else if 0 < point ∧ point ≤ 16 then
    ds.take point.toNat ++ '.' :: ds.drop point.toNat
  else if -5 < point ∧ point ≤ 0 then
    '0' :: '.' :: (List.replicate (-point).toNat '0' ++ ds)
  else
    match ds with
    | [] => []
    | [c] => c :: exponentChars layout (point - 1)
    | c :: rest => c :: '.' :: (rest ++ exponentChars layout (point - 1))

end Decimal

/-- The text of a finite number: its sign, then the shortest decimal. -/
def Binary64.chars (layout : Decimal.Layout) (x : Binary64) : List Char :=
  if x.negative then '-' :: Decimal.chars layout x.shortest
  else Decimal.chars layout x.shortest

end SchemaBundle
