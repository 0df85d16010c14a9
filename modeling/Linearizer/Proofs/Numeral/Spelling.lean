import Linearizer.Value.Number
import Mathlib.Algebra.Order.Field.Rat
import Mathlib.Algebra.Order.Field.Power
import Mathlib.Data.Rat.Cast.Order

/-!
# Spellings of numerals

The grammar of decimal numerals, apart from any way to read them:
`[+-]? (digits ['.' digits*] | '.' digits) ([eE] [+-]? digits)?`.

* `Numeral.Spelling` is a way to write a numeral, and `Numeral.Spelling.text` what is written;
* `Numeral.value` is the number that a numeral denotes;
* `Numeral.Spelling.Leads` says that a spelling is the longest one at the front of a text.
-/

namespace Linearizer
namespace Numeral

theorem digitsValue_toDigits (n : Nat) : digitsValue (Nat.toDigits 10 n) = n :=
  Nat.ofDigitChars_ten_toDigits

theorem isDigit_toDigits (n : Nat) : ∀ d ∈ Nat.toDigits 10 n, d.isDigit = true :=
  fun _ => Nat.isDigit_of_mem_toDigits (by decide) (by decide)

/-- A sign that is written. -/
inductive Sign where
  | plus
  | minus
deriving DecidableEq

/-- The characters of a sign, if there is one. -/
def Sign.text : Option Sign → List Char
  | none => []
  | some .plus => ['+']
  | some .minus => ['-']

/-- A power of ten that is written after the digits. -/
structure Scale where
  /-- Whether its letter is a capital. -/
  capital : Bool
  sign : Option Sign
  digits : List Char
  isDigit : ∀ d ∈ digits, d.isDigit = true
  ne_nil : digits ≠ []

namespace Scale

/-- The letter before the exponent. -/
def letter (c : Scale) : Char := if c.capital then 'E' else 'e'

/-- What is written for the power. -/
def text (c : Scale) : List Char := c.letter :: Sign.text c.sign ++ c.digits

theorem text_append (c : Scale) (t : List Char) :
    c.text ++ t = c.letter :: (Sign.text c.sign ++ (c.digits ++ t)) := by
  simp [text]

/-- The exponent. -/
def exponent (c : Scale) : Int :=
  if c.sign = some .minus then -(digitsValue c.digits : Int) else digitsValue c.digits

end Scale

/-- How a numeral is written. -/
structure Spelling where
  sign : Option Sign
  whole : List Char
  /-- The digits after the point, if there is a point. -/
  fraction : Option (List Char)
  scale : Option Scale
  isDigit_whole : ∀ d ∈ whole, d.isDigit = true
  isDigit_fraction : ∀ ds ∈ fraction, ∀ d ∈ ds, d.isDigit = true
  /-- A digit stands before or after the point. -/
  ne_nil : whole ≠ [] ∨ ∃ ds ∈ fraction, ds ≠ []

namespace Spelling

theorem isDigit_none : ∀ ds ∈ (none : Option (List Char)), ∀ d ∈ ds, d.isDigit = true :=
  nofun

/-- The point and the digits after it. -/
def fractionText : Option (List Char) → List Char
  | none => []
  | some ds => '.' :: ds

/-- The power of ten, if there is one. -/
def scaleText : Option Scale → List Char
  | none => []
  | some c => c.text

/-- What is written. -/
def text (p : Spelling) : List Char :=
  Sign.text p.sign ++ p.whole ++ fractionText p.fraction ++ scaleText p.scale

theorem text_append (p : Spelling) (t : List Char) :
    p.text ++ t =
      Sign.text p.sign ++ (p.whole ++ (fractionText p.fraction ++ (scaleText p.scale ++ t))) := by
  simp [text]

/-- The numeral that is written. -/
def numeral (p : Spelling) : Numeral where
  negative := p.sign = some .minus
  whole := p.whole
  fraction := p.fraction.getD []
  exponent := (p.scale.map Scale.exponent).getD 0

/-- Whether there is neither a point nor a power of ten. -/
def IsInteger (p : Spelling) : Prop := p.fraction = none ∧ p.scale = none

/-- The number that is written: an integer that fits into 64 bits, or a double. -/
def number (p : Spelling) : Number :=
  match p.fraction, p.scale, int64? p.numeral.toInt with
  | none, none, some n => .long n
  | _, _, _ => .double p.numeral.toDouble

/-- The spelling is at the front of the text, and no longer one is. -/
structure Leads (p : Spelling) (t : List Char) : Prop where
  front : p.text <+: t
  longest : ∀ q : Spelling, q.text <+: t → q.text.length ≤ p.text.length

end Spelling

/-- The number that a numeral denotes. -/
def value (n : Numeral) : ℚ :=
  (if n.negative then -1 else 1) * digitsValue (n.whole ++ n.fraction) *
    10 ^ (n.exponent - n.fraction.length)

end Numeral
end Linearizer
