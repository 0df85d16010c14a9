/-!
# Decimals

A decimal is a whole number of units, each a power of ten. Two layouts write one: positional, with
as many zeros as it takes, and scientific, with one digit before the point.

* `Decimal.positional` and `Decimal.scientific` are the two texts;
* `roundHalfEven` divides and rounds a half to the even neighbour.
-/

namespace Linearizer

/-- The decimal `units * 10 ^ exponent`. -/
structure Decimal where
  /-- How many units there are. -/
  units : Nat
  /-- The power of ten that is the unit. -/
  exponent : Int
deriving DecidableEq

namespace Decimal

/-- The digits of the number of units, most significant first. -/
def digits (d : Decimal) : List Char := Nat.toDigits 10 d.units

/-- The power of ten that the first digit counts. -/
def leading (d : Decimal) : Int := d.exponent + d.digits.length - 1

/-- The digits around a point, zeros filled in on either side; a whole number has no point. -/
def positional (d : Decimal) (point : Char) : List Char :=
  if 0 ≤ d.exponent then
    d.digits ++ List.replicate d.exponent.toNat '0'
  else
    let places := (-d.exponent).toNat
    let padded := List.replicate (places + 1 - d.digits.length) '0' ++ d.digits
    let whole := padded.length - places
    padded.take whole ++ point :: padded.drop whole

/-- The exponent's digits, with `-` before them when it is negative. -/
def exponentText (e : Int) : List Char :=
  if e < 0 then '-' :: Nat.toDigits 10 (-e).toNat else Nat.toDigits 10 e.toNat

/-- One digit, the others after a point when there are any, and the exponent after `e`. -/
def scientific (d : Decimal) : List Char :=
  match d.digits with
  | [] => []
  | [c] => c :: 'e' :: exponentText d.leading
  | c :: rest => c :: '.' :: rest ++ 'e' :: exponentText d.leading

end Decimal

/-- The whole number nearest to `num / den`, the even one of two that are equally near. -/
def roundHalfEven (num den : Nat) : Nat :=
  let q := num / den
  let r := num % den
  if 2 * r < den then q
  else if den < 2 * r then q + 1
  else q + q % 2

end Linearizer
