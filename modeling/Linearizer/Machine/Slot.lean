import Linearizer.Conversion
import Linearizer.Value.Basic

/-!
# Slots

The entries of the evaluation stack of the reference machine. A slot holds a value in some encoding,
the address of such a slot, or the context.

* `Slot.of?` puts a value into an encoding that can hold it;
* `Slot.toValue?` reads a slot back as a value;
* `Trap` is what can stop the machine.
-/

namespace Linearizer

/-- An entry of the evaluation stack. -/
inductive Slot where
  /-- A truth value or a 32-bit integer. -/
  | i32 (n : Int32)
  | i64 (n : Int64)
  | f64 (x : Float)
  | str (s : String)
  /-- A string buffer. -/
  | buffer (s : String)
  | number (n : Number)
  | array (items : List Value)
  | object (cls : Option ClassId)
  | value (v : Value)
  /-- A cell with what it holds. -/
  | alias (v : Value)
  | context (c : Context)
  /-- The address of where a slot is stored. -/
  | address (stored : Slot)
  | null

namespace Slot

/-- The name of what a slot holds. -/
def name : Slot → String
  | .i32 _ => "int32"
  | .i64 _ => "int64"
  | .f64 _ => "double"
  | .str _ => "string"
  | .buffer _ => "mstring"
  | .number _ => "number"
  | .array _ => "array"
  | .object _ => "object"
  | .value _ => "value"
  | .alias _ => "alias"
  | .context _ => "context"
  | .address _ => "address"
  | .null => "null"

/-- A truth value as a slot. -/
def ofBool (b : Bool) : Slot := .i32 (if b then 1 else 0)

/-- The slot that holds a value in an encoding, when the encoding can hold its kind. -/
def of? : Value → Encoding → Option Slot
  | v, .value => some (.value v)
  | v, .alias => some (.alias v)
  | .bool b, .bool => some (ofBool b)
  | .long n, .int64 => some (.i64 n)
  | .long n, .int32 => some (.i32 n.toInt32)
  | .double x, .double => some (.f64 x)
  | .long n, .number => some (.number (.long n))
  | .double x, .number => some (.number (.double x))
  | .string s, .string => some (.str s)
  | .string s, .mstring => some (.buffer s)
  | .array items, .array => some (.array items)
  | .object cls, .object _ => some (.object cls)
  | _, _ => none

/-- The value that a slot holds in an encoding; the context is no value. -/
def toValue? : Slot → Encoding → Option Value
  | .i32 n, .bool => some (.bool (n != 0))
  | .i32 n, _ => some (.long n.toInt64)
  | .i64 n, _ => some (.long n)
  | .f64 x, _ => some (.double x)
  | .str s, _ | .buffer s, _ => some (.string s)
  | .number n, _ => some (.ofNumber n)
  | .array items, _ => some (.array items)
  | .object cls, _ => some (.object cls)
  | .value v, _ | .alias v, _ => some v
  | .address stored, e => stored.toValue? e
  | .null, _ => some .null
  | .context _, _ => none

end Slot

/-- What stops the machine. -/
inductive Trap where
  /-- There are fewer entries on the stack than a step takes. -/
  | underflow
  /-- A step finds a slot that it cannot work on. -/
  | mismatch (step : Step) (found : Slot)
  /-- The context is read as a value. -/
  | unreadable
  /-- A tagged value is read as a kind that it does not have. -/
  | payload (expected : Encoding) (found : Value)
  /-- An object does not have the class that is asked for. -/
  | cast (cls : ClassId)
  /-- The machine does not have the step. -/
  | notModeled (step : Step)
  /-- There is no conversion by address. -/
  | notByAddress (source target : Encoding)
  /-- More than the result is left on the stack. -/
  | unbalanced (count : Nat)
  /-- There is no conversion. -/
  | noPlan (source : Encoding) (hint : Hint) (target : Encoding)

/-- The text of a trap. -/
def Trap.message : Trap → String
  | .underflow => "evaluation stack underflow"
  | .mismatch step found => step.name ++ " cannot operate on " ++ found.name
  | .unreadable => "read cannot operate on context"
  | .payload expected found =>
    "payload read as " ++ expected.text ++ " but the value is " ++ found.term
  | .cast c => "object is not an instance of " ++ c.text
  | .notModeled step => "not modeled: " ++ step.name
  | .notByAddress source target =>
    "not modeled: " ++ source.text ++ " to " ++ target.text ++ " by address"
  | .unbalanced count => toString count ++ " value(s) left on the stack"
  | .noPlan source hint target => Conversion.unsupportedText source hint target

end Linearizer
