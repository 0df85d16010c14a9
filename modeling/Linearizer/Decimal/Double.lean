import Linearizer.Decimal.Binary

/-!
# Doubles

What the library needs of double precision numbers beyond their arithmetic: the remainder of a
division, the nearest double of an integer or of a decimal, the integer of a double, and their
shortest text.

* `Double.trunc` is the double without its fraction, and `Double.rem` the remainder of a division;
* `Double.toInt64` is the integer of a double, modulo `2 ^ 64`;
* `Double.ofInt64` and `Double.ofDecimal` round to the nearest double;
* `Double.Layout.text` writes the fewest digits that read back as the same double.
-/

namespace Linearizer
namespace Double

open Float.Model (UnpackedFloat)
open Float.Model.UnpackedFloat (Sign)

/-- The double nearest to `m * 2 ^ e`, or to its negative; a zero has the sign too. -/
def ofBinary (sign : Sign) (m : Nat) (e : Int) : Float :=
  .ofModel (.pack (.normalize .binary64 (sign.apply m) e sign))

/-- The double without its fraction. -/
def trunc (x : Float) : Float :=
  match x.toModel.unpack with
  | .finite sign m e _ => if 0 ≤ e then x else ofBinary sign (m / Nat.pow 2 (-e).toNat) 0
  | _ => x

/-- The remainder of a division whose quotient is rounded toward zero. It is exact, and has the sign
of the dividend. -/
def rem (x y : Float) : Float :=
  match x.toModel.unpack, y.toModel.unpack with
  | .finite sign m e _, .finite _ n f _ =>
    let unit := min e f
    ofBinary sign (m * Nat.pow 2 (e - unit).toNat % (n * Nat.pow 2 (f - unit).toNat)) unit
  | .zero _, .finite .. | .zero _, .infinity _ | .finite .., .infinity _ => x
  | _, _ => .ofModel (.pack .notANumber)

/-- The remainder that is not negative. -/
def remEuclid (x y : Float) : Float :=
  let r := rem x y
  if r < 0.0 then r + y.abs else r

/-- The double nearest to an integer. -/
def ofInt64 (n : Int64) : Float := .ofModel (.ofInt64 n)

/-- The value rounded toward zero: as it is where it fits into 64 bits, and modulo `2 ^ 64` beyond;
zero when the double is not finite. -/
def toInt64 (x : Float) : Int64 :=
  if x.isFinite then
    let t := trunc x
    if ofInt64 Int64.minValue ≤ t && t < ofInt64 Int64.maxValue then t.toModel.toInt64
    else (remEuclid t 18446744073709551616.0).toUInt64.toInt64
  else 0

/-- The double nearest to `units * 10 ^ exponent`, or to its negative. -/
def ofDecimal (negative : Bool) (units : Nat) (exponent : Int) : Float :=
  let x : Float := .ofModel (.ofScientific units exponent)
  if negative then -x else x

/-- Whether the sign bit is set; a double that is not a number has no sign. -/
def isNegative (x : Float) : Bool :=
  match x.toModel.unpack with
  | .infinity .negative | .zero .negative | .finite .negative _ _ _ => true
  | _ => false

/-- How a double is laid out in text. -/
structure Layout where
  /-- The leading powers of ten that are written positionally. -/
  positional : Int → Bool
  /-- Whether a whole number written positionally ends in `.0`. -/
  pointZero : Bool

namespace Layout

/-- The digits of a positive double. -/
def digits (layout : Layout) (b : Binary) : List Char :=
  let d := b.shortest
  if layout.positional d.leading then
    d.positional '.' ++ if layout.pointZero && 0 ≤ d.exponent then ['.', '0'] else []
  else d.scientific

/-- The text of a double without its sign. -/
def magnitude (layout : Layout) (x : Float) : List Char :=
  match x.toModel.unpack with
  | .notANumber => ['N', 'a', 'N']
  | .infinity _ => ['i', 'n', 'f']
  | .zero _ => if layout.pointZero then ['0', '.', '0'] else ['0']
  | .finite _ m e _ => layout.digits ⟨m, e⟩

/-- The text of a double. -/
def text (layout : Layout) (x : Float) : String :=
  String.ofList ((if isNegative x then ['-'] else []) ++ layout.magnitude x)

end Layout

/-- The layout of literals: a point is always there, and numbers of seventeen digits before it or
more than three zeros after it are written with an exponent. -/
def literal : Layout := ⟨fun leading => -4 ≤ leading && leading < 16, true⟩

/-- The layout without exponents and without a point after whole numbers. -/
def plain : Layout := ⟨fun _ => true, false⟩

end Double
end Linearizer
