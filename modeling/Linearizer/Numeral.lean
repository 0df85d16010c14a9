import Linearizer.Decimal.Double

/-!
# Numerals

A numeral is a sign, digits with an optional point among them, and an optional exponent. The
functions here read its parts from the front of a text and hand back the rest; `Numeral.toInt` and
`Numeral.toDouble` give its value.
-/

namespace Linearizer

/-- A decimal numeral. -/
structure Numeral where
  /-- Whether a minus sign stands before it. -/
  negative : Bool
  /-- The digits before the point. -/
  whole : List Char
  /-- The digits after the point. -/
  fraction : List Char
  /-- The power of ten given after the digits. -/
  exponent : Int
deriving DecidableEq

namespace Numeral

/-- The number that the digits denote. -/
def digitsValue (ds : List Char) : Nat := ds.foldl (fun n d => 10 * n + (d.toNat - '0'.toNat)) 0

/-- The digits at the front of a text. -/
def digitsOf (cs : List Char) : List Char := cs.takeWhile Char.isDigit

/-- What follows the digits at the front of a text. -/
def afterDigits (cs : List Char) : List Char := cs.dropWhile Char.isDigit

/-- Whether a minus sign stands at the front of a text, and what follows the sign if there is
one. -/
def signOf : List Char → Bool × List Char
  | '-' :: rest => (true, rest)
  | '+' :: rest => (false, rest)
  | rest => (false, rest)

/-- The digits after a point at the front of a text, if there is a point with a digit before or
after it, and what follows. -/
def fractionOf (whole : List Char) : List Char → Option (List Char) × List Char
  | '.' :: rest =>
    if whole.isEmpty && (digitsOf rest).isEmpty then (none, '.' :: rest)
    else (some (digitsOf rest), afterDigits rest)
  | rest => (none, rest)

/-- An exponent at the front of a text: the letter `e` in either case, an optional sign and at least
one digit. -/
def exponentOf? : List Char → Option (Int × List Char)
  | e :: rest =>
    if e = 'e' || e = 'E' then
      let (negative, body) := signOf rest
      let ds := digitsOf body
      if ds.isEmpty then none
      else
        let n : Int := digitsValue ds
        some (if negative then -n else n, afterDigits body)
    else none
  | [] => none

/-- The integer that the digits before the point denote. -/
def toInt (n : Numeral) : Int :=
  let value : Int := digitsValue n.whole
  if n.negative then -value else value

/-- The double nearest to the numeral. -/
def toDouble (n : Numeral) : Float :=
  Double.ofDecimal n.negative (digitsValue (n.whole ++ n.fraction))
    (n.exponent - n.fraction.length)

/-- The 64-bit integer of this value, when there is one. -/
def int64? (n : Int) : Option Int64 :=
  if Int64.minValue.toInt ≤ n && n ≤ Int64.maxValue.toInt then some (Int64.ofInt n) else none

end Numeral
end Linearizer
