import Linearizer.Numeral

/-!
# Numbers

A number is an integer or a double. A text has a number at its start, which is what the weak typing
of the source language makes of it.

* `Number` and its conversions;
* `Number.general` is the text of a double with at most fourteen significant digits;
* `Number.leading?` reads the number at the start of a text.
-/

namespace Linearizer

/-- What the surroundings of a running routine decide. -/
structure Context where
  /-- The character between the whole part and the fraction of a number. -/
  separator : Char := '.'
deriving DecidableEq

/-- An integer or a double. -/
inductive Number where
  | long (n : Int64)
  | double (x : Float)
deriving DecidableEq

namespace Number

/-- The significant digits of a double's text. -/
def precision : Nat := 14

/-- The decimal without zeros at the end of its units. -/
def trimmed (d : Decimal) : Decimal :=
  let zeros := (d.digits.reverse.takeWhile (· = '0')).length
  ⟨d.units / Nat.pow 10 zeros, d.exponent + zeros⟩

/-- A decimal with one digit before the separator and at least one after it, and a signed exponent
after `E`. -/
def exponential (d : Decimal) (separator : Char) : List Char :=
  let fraction := if d.digits.tail.isEmpty then ['0'] else d.digits.tail
  let sign := if d.leading < 0 then '-' else '+'
  d.digits.take 1 ++ separator :: fraction ++ 'E' :: sign :: Nat.toDigits 10 d.leading.natAbs

/-- The text of a decimal: positional for leading powers of ten from `-4` to `13`, and exponential
beyond. -/
def layout (d : Decimal) (separator : Char) : List Char :=
  if d.leading < -4 || precision ≤ d.leading then exponential d separator
  else d.positional separator

/-- The text with a sign before it. -/
def withSign (body : List Char) : Float.Model.UnpackedFloat.Sign → List Char
  | .negative => '-' :: body
  | .positive => body

/-- The text of a double in a context, with at most fourteen significant digits. -/
def general (x : Float) (context : Context) : String :=
  match x.toModel.unpack with
  | .notANumber => "NAN"
  | .infinity .positive => "INF"
  | .infinity .negative => "-INF"
  | .zero .positive => "0"
  | .zero .negative => "-0"
  | .finite sign m e _ =>
    let body := layout (trimmed ((Binary.mk m e).significant precision)) context.separator
    String.ofList (withSign body sign)

/-- Whether the number differs from zero. -/
def toBool : Number → Bool
  | .long n => n != 0
  | .double x => x != 0.0

/-- The number as an integer. -/
def toLong : Number → Int64
  | .long n => n
  | .double x => Double.toInt64 x

/-- The number as a double. -/
def toDouble : Number → Float
  | .long n => Double.ofInt64 n
  | .double x => x

/-- The text of the number. -/
def text (context : Context) : Number → String
  | .long n => toString n.toInt
  | .double x => general x context

/-- The blanks that may stand before a number. -/
def isPadding (c : Char) : Bool :=
  c = ' ' || c = '\t' || c = '\n' || c = '\r' || c = '\x0b' || c = '\x0c'

/-- The number at the start of a text, after blanks: an optional sign, digits of which some may
stand after a point, and an optional exponent. Without point and exponent it is an integer, if it
is in range. -/
def leading? (s : String) : Option Number :=
  let (negative, body) := Numeral.signOf (s.toList.dropWhile isPadding)
  let whole := Numeral.digitsOf body
  let (fraction, rest) := Numeral.fractionOf whole (Numeral.afterDigits body)
  let numeral (exponent : Int) : Numeral := ⟨negative, whole, fraction.getD [], exponent⟩
  if whole.isEmpty && (fraction.getD []).isEmpty then none
  else
    match Numeral.exponentOf? rest with
    | some (exponent, _) => some (.double (numeral exponent).toDouble)
    | none =>
      if fraction.isSome then some (.double (numeral 0).toDouble)
      else
        match Numeral.int64? (numeral 0).toInt with
        | some n => some (.long n)
        | none => some (.double (numeral 0).toDouble)

end Number
end Linearizer
