import Linearizer.Opcode

/-!
# Helpers

The routines of the run-time library that generated code calls: conversions, constructors and
readers of the tagged encodings, and the operations on strings, arrays, aliases and enumerators.
A helper takes a fixed number of arguments, the last of which is the context when what it does
depends on it.

A registry numbers the helpers that some code has called, in the order of the first calls.
-/

namespace Linearizer

/-- A conversion that the run-time library offers. -/
inductive Coercion where
  | toBoolean | toLong | toDouble | toString | toNumber | toClass | asArray
deriving DecidableEq

/-- The name of a conversion. -/
def Coercion.name : Coercion → String
  | .toBoolean => "ToBoolean"
  | .toLong => "ToLong"
  | .toDouble => "ToDouble"
  | .toString => "ToString"
  | .toNumber => "ToNumber"
  | .toClass => "ToClass"
  | .asArray => "AsArray"

/-- Arithmetic on numbers. -/
inductive Arithmetic where
  | add | sub | mul
deriving DecidableEq

/-- The name of an arithmetic helper. -/
def Arithmetic.name : Arithmetic → String
  | .add => "Add"
  | .sub => "Sub"
  | .mul => "Mul"

/-- A routine of the run-time library. -/
inductive Helper where
  /-- Converts a value, which is given by its address when `byAddress` is set. -/
  | convert (coercion : Coercion) (source : Encoding) (byAddress : Bool)
  /-- Wraps an encoding into a tagged value. -/
  | box (source : Encoding)
  /-- The tagged value of an object. -/
  | boxObject
  /-- Widens an integer or a double to a number. -/
  | widen (source : Encoding)
  /-- Reads what a tagged encoding holds, without looking at the tag. -/
  | payload (source target : Encoding)
  | nullValue
  | newBuffer
  | bufferAppend
  | newAlias
  | aliasValue
  | newArray
  | arrayAdd
  | arithmetic (op : Arithmetic)
  | concat
  | looseEquals
  | looseLess
  | echo
  | getEnumerator
  | moveNext
  | currentValue
  | currentKey
deriving DecidableEq

namespace Helper

/-- The conversion of a value; the class of an object plays no part in it. -/
def coerce (coercion : Coercion) (source : Encoding) : Helper :=
  .convert coercion source.erased false

/-- The conversion of a value given by its address. -/
def coerceAt (coercion : Coercion) (source : Encoding) : Helper :=
  .convert coercion source.erased true

/-- Whether the context is the last argument: the text of a double depends on it, as do output and
enumeration. -/
def needsContext : Helper → Bool
  | .convert .toString .double _ | .convert .toString .number _
  | .convert .toString .value _ => true
  | .echo | .getEnumerator => true
  | _ => false

/-- How many arguments a helper takes, the context included. -/
def arity (h : Helper) : Nat :=
  match h with
  | .nullValue | .newArray => 0
  | .bufferAppend | .arrayAdd | .arithmetic _ | .concat | .looseEquals | .looseLess => 2
  | _ => 1 + h.needsContext.toNat

/-- Whether a helper leaves a result. -/
def returns : Helper → Bool
  | .bufferAppend | .arrayAdd | .echo => false
  | _ => true

/-- The effect of a call on the stack. -/
def effect (h : Helper) : Effect := ⟨h.arity, h.returns.toNat⟩

/-- The text of a helper. -/
def text (h : Helper) : String :=
  match h with
  | .convert coercion source byAddress =>
    let address := if byAddress then "&" else ""
    let context := if h.needsContext then ", Context" else ""
    "Convert." ++ coercion.name ++ "(" ++ source.text ++ address ++ context ++ ")"
  | .box source => "Value.Create(" ++ source.text ++ ")"
  | .boxObject => "Value.FromObject(object)"
  | .widen source => "Number.Create(" ++ source.text ++ ")"
  | .payload source target => source.text ++ ".As" ++ target.name
  | .nullValue => "Value.Null"
  | .newBuffer => "MutableString.Create(string)"
  | .bufferAppend => "MutableString.Append(string)"
  | .newAlias => "Alias.Create(value)"
  | .aliasValue => "Alias.Value"
  | .newArray => "Array.Create()"
  | .arrayAdd => "Array.Add(value)"
  | .arithmetic op => "Number." ++ op.name ++ "(number, number)"
  | .concat => "String.Concat(string, string)"
  | .looseEquals => "Compare.LooseEquals(value, value)"
  | .looseLess => "Compare.LessThan(value, value)"
  | .echo => "Context.Echo(string)"
  | .getEnumerator => "Operators.GetForeachEnumerator(value, Context)"
  | .moveNext => "Enumerator.MoveNext()"
  | .currentValue => "Enumerator.CurrentValue"
  | .currentKey => "Enumerator.CurrentKey"

end Helper

/-- A helper with its number in a registry. -/
structure HelperRef where
  /-- The number of the helper, a natural number of any size. -/
  id : Nat
  /-- The helper itself. -/
  helper : Helper
deriving DecidableEq

/-- The helpers that have been called, numbered in the order of their first calls. -/
structure Registry where
  /-- The helpers by number. -/
  helpers : List Helper := []
  /-- The table of the numbers, by helper. -/
  numbers : List (Helper × Nat) := []
deriving DecidableEq

namespace Registry

/-- How many helpers there are. -/
def size (r : Registry) : Nat := r.helpers.length

/-- The helper of a number. -/
def get? (r : Registry) (id : Nat) : Option Helper := r.helpers[id]?

/-- The number of a helper. -/
def number? (r : Registry) (h : Helper) : Option Nat := r.numbers.lookup h

/-- The number of a helper, which is added at the end when it is new. A registry never runs out of
numbers. -/
def resolve (r : Registry) (h : Helper) : HelperRef × Registry :=
  match r.number? h with
  | some id => (⟨id, h⟩, r)
  | none => (⟨r.size, h⟩, ⟨r.helpers ++ [h], (h, r.size) :: r.numbers⟩)

/-- The registry after some helpers have been called in order. -/
def after (r : Registry) (calls : List Helper) : Registry :=
  calls.foldl (fun r h => (r.resolve h).2) r

end Registry
end Linearizer
