import Linearizer.Encoding
import Linearizer.Text.Quoted
import Linearizer.Value.Number

/-!
# Values

The values of the source language and its weak typing: every value can be read as a truth value, an
integer, a double, a number, a text, an array and an object.
-/

namespace Linearizer

/-- A value of the source language. -/
inductive Value where
  | null
  | bool (b : Bool)
  | long (n : Int64)
  | double (x : Float)
  | string (s : String)
  | array (items : List Value)
  /-- An object; the generic one that conversions make has no class. -/
  | object (cls : Option ClassId)

namespace Value

/-- The kind of a value. -/
def kind : Value → Kind
  | .null => .null
  | .bool _ => .bool
  | .long _ => .int64
  | .double _ => .double
  | .string _ => .string
  | .array _ => .array
  | .object _ => .object

/-- A number as a value. -/
def ofNumber : Number → Value
  | .long n => .long n
  | .double x => .double x

/-- Whether a value counts as true. A double that is not a number differs from zero and does. -/
def toBool : Value → Bool
  | .null => false
  | .bool b => b
  | .long n => n != 0
  | .double x => x != 0.0
  | .string s => !(s = "" || s = "0")
  | .array items => !items.isEmpty
  | .object _ => true

/-- The integer that a value counts as. -/
def toLong : Value → Int64
  | .null => 0
  | .bool b => if b then 1 else 0
  | .long n => n
  | .double x => Double.toInt64 x
  | .string s => ((Number.leading? s).map Number.toLong).getD 0
  | .array items => if items.isEmpty then 0 else 1
  | .object _ => 1

/-- The double that a value counts as. -/
def toDouble : Value → Float
  | .double x => x
  | .string s => ((Number.leading? s).map Number.toDouble).getD 0.0
  | v => Double.ofInt64 v.toLong

/-- The number that a value counts as. -/
def toNumber : Value → Number
  | .double x => .double x
  | .string s => (Number.leading? s).getD (.long 0)
  | v => .long v.toLong

/-- The text of a value. -/
def text (context : Context) : Value → String
  | .null => ""
  | .bool b => if b then "1" else ""
  | .long n => toString n.toInt
  | .double x => Number.general x context
  | .string s => s
  | .array _ => "Array"
  | .object _ => "Object"

/-- The items of a value: null has none, and what is not an array is its own only item. -/
def toArray : Value → List Value
  | .null => []
  | .array items => items
  | v => [v]

/-- The class of the object that a value counts as. -/
def toObject : Value → Option ClassId
  | .object cls => cls
  | _ => none

mutual

/-- The value as a term that shows its kind. -/
def term : Value → String
  | .null => "Null"
  | .bool b => "Bool(" ++ (if b then "true" else "false") ++ ")"
  | .long n => "Long(" ++ toString n.toInt ++ ")"
  | .double x => "Double(" ++ Double.literal.text x ++ ")"
  | .string s => "String(" ++ Text.quoted s ++ ")"
  | .array items => "Array([" ++ ", ".intercalate (terms items) ++ "])"
  | .object (some c) =>
    "Object(ObjectRef \x7b class: Some(ClassId(" ++ toString c ++ ")) \x7d)"
  | .object none => "Object(ObjectRef \x7b class: None \x7d)"

/-- The terms of the items of an array. -/
def terms : List Value → List String
  | [] => []
  | v :: rest => term v :: terms rest

end

end Value
end Linearizer
