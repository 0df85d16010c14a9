import Linearizer.Decimal.Basic

/-!
# Decimals of binary fractions

The positive number `m * 2 ^ e` on the decimal grids. All arithmetic is exact.

* `Binary.significant` rounds it to a number of significant digits;
* `Binary.shortest` picks the decimal with the fewest digits that the number is still the nearest
  double of.
-/

namespace Linearizer

/-- The positive number `mantissa * 2 ^ exponent`. -/
structure Binary where
  /-- The whole number that is scaled. -/
  mantissa : Nat
  /-- The power of two that scales it. -/
  exponent : Int
deriving DecidableEq

namespace Binary

/-- The number as units of `10 ^ k`: numerator and denominator of the quotient. -/
def overPowerOfTen (b : Binary) (k : Int) : Nat × Nat :=
  (b.mantissa * Nat.pow 2 b.exponent.toNat * Nat.pow 10 (-k).toNat,
    Nat.pow 2 (-b.exponent).toNat * Nat.pow 10 k.toNat)

/-- The exponents of the grids from coarse to fine: no double reaches `10 ^ 309`, and the least one
has its eighteenth digit at `10 ^ -341`. -/
def gridExponents : List Int := (List.range 651).map fun (i : Nat) => 309 - (i : Int)

/-- The number rounded to `count` significant digits, a half going to the even neighbour. -/
def significant (b : Binary) (count : Nat) : Decimal :=
  let pick (k : Int) : Option Decimal :=
    let (num, den) := b.overPowerOfTen k
    if den * Nat.pow 10 (count - 1) ≤ num then some ⟨roundHalfEven num den, k⟩ else none
  (gridExponents.findSome? pick).getD ⟨0, 0⟩

/-- The decimal on the grid of `10 ^ k` that lies among the numbers rounding to the double `b`:
one of the two grid points around it, the nearer one when both do, and the upper one of two that
are equally near. The bounds are in quarters of the mantissa's unit, belong to the range when the
mantissa is even, and the lower one is closer where the doubles below stand closer together. -/
def onGrid (b : Binary) (k : Int) : Option Decimal :=
  let quarters (n : Nat) : Nat := (Binary.mk n (b.exponent - 2)).overPowerOfTen k |>.1
  let unit := (Binary.mk 1 (b.exponent - 2)).overPowerOfTen k |>.2
  let narrow := b.mantissa = Nat.pow 2 52 && -1074 < b.exponent
  let low := quarters (4 * b.mantissa - if narrow then 1 else 2)
  let value := quarters (4 * b.mantissa)
  let high := quarters (4 * b.mantissa + 2)
  let closed := b.mantissa % 2 = 0
  let below := value / unit
  let above := below + 1
  let belowFits := if closed then low ≤ below * unit else low < below * unit
  let aboveFits := if closed then above * unit ≤ high else above * unit < high
  if belowFits ∧ (¬ aboveFits ∨ 2 * value < (below + above) * unit) then some ⟨below, k⟩
  else if aboveFits then some ⟨above, k⟩
  else none

/-- The decimal of the coarsest grid that has one among the numbers rounding to the double `b`. -/
def shortest (b : Binary) : Decimal :=
  (gridExponents.findSome? b.onGrid).getD ⟨0, 0⟩

end Binary
end Linearizer
