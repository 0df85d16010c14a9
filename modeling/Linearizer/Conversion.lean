import Linearizer.Helper

/-!
# Conversions

A conversion is the code that turns the value on top of the stack from one encoding into another
under the weak typing of the source language. Where the hint allows a single kind, what a tagged
value holds is read directly; where a table cell is empty there is no conversion.

| from, to | bool | int64 | double | string | value | number | array | object |
|---|---|---|---|---|---|---|---|---|
| int64 | differs from 0 | as is | exact | helper | box | widen | none | box, helper |
| double | differs from 0 | truncate | as is | helper, context | box | widen | none | box, helper |
| string | helper | helper | helper | as is | box | none | none | none |
| number | helper | helper | helper | helper, context | box | as is | none | helper |
| value | helper | helper | helper | helper, context | as is | helper | helper | helper |
| array | none | none | none | none | box | none | as is | helper |
| object | none | none | none | none | box | none | none | cast |

* `Conversion.cell` is the table;
* `Conversion.plan?` is the conversion for a hint;
* `Conversion.planAt?` is the conversion of a value given by its address.
-/

namespace Linearizer

/-- A step of a conversion. -/
inductive Step where
  | op (opcode : Opcode)
  | call (helper : Helper)
deriving DecidableEq

/-- The text of a step. -/
def Step.text : Step → String
  | .op o => o.text
  | .call helper => "call " ++ helper.text

/-- The name of a step in a complaint. -/
def Step.name : Step → String
  | .op o => o.text
  | .call helper => helper.text

/-- The code of a conversion. -/
structure Conversion where
  /-- The steps in order. -/
  steps : List Step
  /-- Whether the hint led to code that reads a tagged value directly. -/
  specialized : Bool
deriving DecidableEq

namespace Conversion

/-- Whether nothing has to be done. -/
def isIdentity (c : Conversion) : Bool := c.steps.isEmpty

/-- Calls a helper, with the context when it needs one. -/
def call (h : Helper) : List Step :=
  if h.needsContext then [.op .ldctx, .call h] else [.call h]

/-- Checks the class of an object, when there is one to check. -/
def cast : Option ClassId → List Step
  | none => []
  | some c => [.op (.castclass c)]

/-- Whether a scalar differs from the constant that `zero` pushes. -/
def nonzero (zero : Opcode) : List Step := [.op zero, .op .ceq, .op (.ldcI4 0), .op .ceq]

/-- Makes an object of what has no own way to one. -/
def boxThenClass (source : Encoding) (cls : Option ClassId) : List Step :=
  call (.box source) ++ call (.coerce .toClass .value) ++ cast cls

/-- The row of truth values. -/
def fromBool : Encoding → Option (List Step)
  | .bool | .int32 => some []
  | .int64 => some [.op .convI8]
  | .double => some [.op .convR8]
  | .string => some (call (.coerce .toString .bool))
  | .value => some (call (.box .bool))
  | .number => some (.op .convI8 :: call (.widen .int64))
  | .object cls => some (boxThenClass .bool cls)
  | _ => none

/-- The row of integers. -/
def fromInt64 : Encoding → Option (List Step)
  | .int64 => some []
  | .bool => some (nonzero (.ldcI8 0))
  | .int32 => some [.op .convI4]
  | .double => some [.op .convR8]
  | .string => some (call (.coerce .toString .int64))
  | .value => some (call (.box .int64))
  | .number => some (call (.widen .int64))
  | .object cls => some (boxThenClass .int64 cls)
  | _ => none

/-- The row of 32-bit integers, which are widened first. -/
def fromInt32 : Encoding → Option (List Step)
  | .int32 => some []
  | .bool => some (nonzero (.ldcI4 0))
  | other => (fromInt64 other).map (.op .convI8 :: ·)

/-- The row of doubles. -/
def fromDouble : Encoding → Option (List Step)
  | .double => some []
  | .bool => some (nonzero (.ldcR8 0.0))
  | .int32 => some [.op .convI4]
  | .int64 => some [.op .convI8]
  | .string => some (call (.coerce .toString .double))
  | .value => some (call (.box .double))
  | .number => some (call (.widen .double))
  | .object cls => some (boxThenClass .double cls)
  | _ => none

/-- The row of strings. -/
def fromString : Encoding → Option (List Step)
  | .string => some []
  | .bool => some (call (.coerce .toBoolean .string))
  | .int32 => some (call (.coerce .toLong .string) ++ [.op .convI4])
  | .int64 => some (call (.coerce .toLong .string))
  | .double => some (call (.coerce .toDouble .string))
  | .value => some (call (.box .string))
  | _ => none

/-- What numbers and tagged values have in common. -/
def fromTagged (source : Encoding) : Encoding → Option (List Step)
  | .bool => some (call (.coerce .toBoolean source))
  | .int32 => some (call (.coerce .toLong source) ++ [.op .convI4])
  | .int64 => some (call (.coerce .toLong source))
  | .double => some (call (.coerce .toDouble source))
  | .string => some (call (.coerce .toString source))
  | .object cls => some (call (.coerce .toClass source) ++ cast cls)
  | _ => none

/-- The row of numbers. -/
def fromNumber : Encoding → Option (List Step)
  | .number => some []
  | .value => some (call (.box .number))
  | other => fromTagged .number other

/-- The row of tagged values. -/
def fromValue : Encoding → Option (List Step)
  | .value => some []
  | .number => some (call (.coerce .toNumber .value))
  | .array => some (call (.coerce .asArray .value))
  | other => fromTagged .value other

/-- The row of arrays. -/
def fromArray : Encoding → Option (List Step)
  | .array => some []
  | .value => some (call (.box .array))
  | .object cls => some (call (.coerce .toClass .array) ++ cast cls)
  | _ => none

/-- The row of objects: a class is checked unless it is known already. -/
def fromObject (known : Option ClassId) : Encoding → Option (List Step)
  | .object cls => some (if cls = known then [] else cast cls)
  | .value => some (call .boxObject)
  | _ => none

/-- The steps from one encoding to another, without regard to hints. -/
def cell (source target : Encoding) : Option (List Step) :=
  match source with
  | .bool => fromBool target
  | .int32 => fromInt32 target
  | .int64 => fromInt64 target
  | .double => fromDouble target
  | .string => fromString target
  | .mstring => if target = .mstring then some [] else none
  | .number => fromNumber target
  | .array => fromArray target
  | .object known => fromObject known target
  | .value => fromValue target
  | .alias => if target = .alias then some [] else none

/-- What null is in an encoding, for those that have a constant for it. -/
def nullConstant : Encoding → Option Opcode
  | .bool | .int32 => some (.ldcI4 0)
  | .int64 => some (.ldcI8 0)
  | .double => some (.ldcR8 0.0)
  | .string => some (.ldstr "")
  | _ => none

/-- How a value of the kind is held inside a tagged encoding. -/
def payload? : Encoding → Kind → Option Encoding
  | .value, kind => kind.encoding?
  | .number, .int64 => some .int64
  | .number, .double => some .double
  | _, _ => none

/-- The steps that rely on the only kind that the hint of a tagged source allows: null is replaced
by a constant, and any other kind is read directly when its own encoding has a way to the
target. -/
def specialize? (source : Encoding) (hint : Hint) (target : Encoding) : Option (List Step) :=
  if source = target ∨ target = .alias then none
  else
    match hint.singular? with
    | none => none
    | some kind =>
      if source = .value ∧ kind = .null then
        (nullConstant target).map fun zero => [.op .pop, .op zero]
      else do
        let payload ← payload? source kind
        let rest ← cell payload target
        return call (.payload source payload) ++ rest

/-- The conversion between encodings that are neither aliases nor buffers. -/
def lower? (source : Encoding) (hint : Hint) (target : Encoding) : Option Conversion :=
  match specialize? source hint target with
  | some steps => some ⟨steps, true⟩
  | none => (cell source target).map fun steps => ⟨steps, false⟩

/-- A conversion with steps before and after it. -/
def wrap (before : List Step) (c : Conversion) (after : List Step) : Conversion :=
  { c with steps := before ++ c.steps ++ after }

/-- The conversion of a value with a hint: an alias is read first, a buffer is turned into a string,
and a new alias or buffer is made last. -/
def plan? (source : Encoding) (hint : Hint) (target : Encoding) : Option Conversion :=
  let (before, current) : List Step × Encoding :=
    if source = .alias ∧ target ≠ .alias then (call .aliasValue, .value) else ([], source)
  if target = .alias ∧ current ≠ .alias then
    (lower? current hint .value).map (wrap before · (call .newAlias))
  else if target = .mstring ∧ current ≠ .mstring then
    (lower? current hint .string).map (wrap before · (call .newBuffer))
  else if current = .mstring ∧ target ≠ .mstring then
    (lower? .string hint target).map (wrap (before ++ call (.coerce .toString .mstring)) · [])
  else (lower? current hint target).map (wrap before · [])

/-- The conversion that the helpers for addresses offer. -/
def coercionAt? : Encoding → Option Coercion
  | .bool => some .toBoolean
  | .int64 => some .toLong
  | .double => some .toDouble
  | .string => some .toString
  | _ => none

/-- The conversion of a number or a tagged value given by its address. There is none where the hint
leads to a direct read, which needs the value itself. -/
def planAt? (source : Encoding) (hint : Hint) (target : Encoding) : Option Conversion :=
  if (source = .number ∨ source = .value) ∧ specialize? source hint target = none then
    (coercionAt? target).map fun coercion => ⟨call (.coerceAt coercion source), false⟩
  else none

/-- The complaint about a conversion that does not exist. -/
def unsupportedText (source : Encoding) (hint : Hint) (target : Encoding) : String :=
  "unsupported conversion from " ++ source.text ++ " (hint " ++ hint.text ++ ") to " ++ target.text

end Conversion
end Linearizer
