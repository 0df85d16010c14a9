import Linearizer.Machine.Slot

/-!
# The reference machine

A stack machine with the steps that conversions are made of. A step that fails leaves the stack as
it was when it failed, without the entries it had taken.

* `Machine.exec` and `Machine.invoke` run an opcode and a helper, and `Machine.run` some steps;
* `Machine.convert` runs the conversion of a slot, and `Machine.convertAt` that of a slot given by
  its address.
-/

namespace Linearizer
namespace Machine

/-- A computation on the stack, whose top comes first. -/
abbrev Run := EStateM Trap (List Slot)

/-- Puts a slot on the stack. -/
def push (s : Slot) : Run Unit := modify (s :: ·)

/-- Takes the top of the stack. -/
def pop : Run Slot := do
  match ← get with
  | [] => throw .underflow
  | s :: rest =>
    set rest
    return s

/-- Takes one slot and puts what `f` makes of it. -/
def unary (step : Step) (f : Slot → Option Slot) : Run Unit := do
  let operand ← pop
  match f operand with
  | some result => push result
  | none => throw (.mismatch step operand)

/-- Takes two slots, the right one first, and puts what `f` makes of them. -/
def binary (op : Opcode) (f : Slot → Slot → Option Slot) : Run Unit := do
  let right ← pop
  let left ← pop
  match f left right with
  | some result => push result
  | none => throw (.mismatch (.op op) left)

/-- Whether two scalars are equal. -/
def equal : Slot → Slot → Option Slot
  | .i32 a, .i32 b => some (.ofBool (a == b))
  | .i64 a, .i64 b => some (.ofBool (a == b))
  | .f64 a, .f64 b => some (.ofBool (a == b))
  | _, _ => none

/-- Whether a scalar is less than another. -/
def less : Slot → Slot → Option Slot
  | .i32 a, .i32 b => some (.ofBool (a < b))
  | .i64 a, .i64 b => some (.ofBool (a < b))
  | .f64 a, .f64 b => some (.ofBool (a < b))
  | _, _ => none

/-- Whether a scalar is less than another as an unsigned integer, or not at least another double. -/
def lessUnsigned : Slot → Slot → Option Slot
  | .i32 a, .i32 b => some (.ofBool (a.toUInt32 < b.toUInt32))
  | .i64 a, .i64 b => some (.ofBool (a.toUInt64 < b.toUInt64))
  | .f64 a, .f64 b => some (.ofBool (!decide (b ≤ a)))
  | _, _ => none

/-- Arithmetic on two integers or two doubles. -/
def arithmetic (long : Int64 → Int64 → Int64) (double : Float → Float → Float) :
    Slot → Slot → Option Slot
  | .i64 a, .i64 b => some (.i64 (long a b))
  | .f64 a, .f64 b => some (.f64 (double a b))
  | _, _ => none

/-- A scalar as a 32-bit integer. -/
def toI32 : Slot → Option Slot
  | .i32 n => some (.i32 n)
  | .i64 n => some (.i32 n.toInt32)
  | .f64 x => some (.i32 (Double.toInt64 x).toInt32)
  | _ => none

/-- A scalar as an integer. -/
def toI64 : Slot → Option Slot
  | .i32 n => some (.i64 n.toInt64)
  | .i64 n => some (.i64 n)
  | .f64 x => some (.i64 (Double.toInt64 x))
  | _ => none

/-- A scalar as a double. -/
def toF64 : Slot → Option Slot
  | .i32 n => some (.f64 (Double.ofInt64 n.toInt64))
  | .i64 n => some (.f64 (Double.ofInt64 n))
  | .f64 x => some (.f64 x)
  | _ => none

/-- Takes an object and puts it back if it has the class. -/
def castTo (c : ClassId) : Run Unit := do
  match ← pop with
  | .object cls => if cls = some c then push (.object cls) else throw (.cast c)
  | found => throw (.mismatch (.op (.castclass c)) found)

/-- Runs an opcode in a context. -/
def exec (context : Context) : Opcode → Run Unit
  | .nop => pure ()
  | .pop => do let _ ← pop
  | .dup => do
    let top ← pop
    push top
    push top
  | .ldcI4 n => push (.i32 n)
  | .ldcI8 n => push (.i64 n)
  | .ldcR8 x => push (.f64 x)
  | .ldstr s => push (.str s)
  | .ldnull => push .null
  | .ldctx => push (.context context)
  | .ceq => binary .ceq equal
  | .clt => binary .clt less
  | .cltUn => binary .cltUn lessUnsigned
  | .add => binary .add (arithmetic (· + ·) (· + ·))
  | .sub => binary .sub (arithmetic (· - ·) (· - ·))
  | .mul => binary .mul (arithmetic (· * ·) (· * ·))
  | .convI4 => unary (.op .convI4) toI32
  | .convI8 => unary (.op .convI8) toI64
  | .convR8 => unary (.op .convR8) toF64
  | .castclass c => castTo c
  | op => throw (.notModeled (.op op))

/-- Takes a slot and reads it as a value. -/
def popValue (e : Encoding) : Run Value := do
  match (← pop).toValue? e with
  | some v => return v
  | none => throw .unreadable

/-- The result of a conversion of the run-time library. -/
def coerced (context : Context) (v : Value) : Coercion → Slot
  | .toBoolean => .ofBool v.toBool
  | .toLong => .i64 v.toLong
  | .toDouble => .f64 v.toDouble
  | .toString => .str (v.text context)
  | .toNumber => .number v.toNumber
  | .toClass => .object v.toObject
  | .asArray => .array v.toArray

/-- The tagged value of an object or of null. -/
def boxedObject : Slot → Option Slot
  | .object cls => some (.value (.object cls))
  | .null => some (.value .null)
  | _ => none

/-- An integer or a double as a number. -/
def widened : Slot → Option Slot
  | .i64 n => some (.number (.long n))
  | .f64 x => some (.number (.double x))
  | _ => none

/-- A buffer of a string. -/
def buffered : Slot → Option Slot
  | .str s => some (.buffer s)
  | _ => none

/-- What a cell holds. -/
def dereferenced : Slot → Option Slot
  | .alias v => some (.value v)
  | _ => none

/-- Takes the context when the helper has it as an argument. -/
def popContext (context : Context) (h : Helper) : Run Context := do
  if h.needsContext then
    match ← pop with
    | .context c => return c
    | found => throw (.mismatch (.call h) found)
  else return context

/-- Calls a helper in a context. -/
def invoke (context : Context) (h : Helper) : Run Unit := do
  let context ← popContext context h
  match h with
  | .convert coercion source _ =>
    let v ← popValue source
    push (coerced context v coercion)
  | .box source =>
    let v ← popValue source
    push (.value v)
  | .boxObject => unary (.call h) boxedObject
  | .widen _ => unary (.call h) widened
  | .payload _ target =>
    let v ← popValue .value
    match Slot.of? v target with
    | some s => push s
    | none => throw (.payload target v)
  | .nullValue => push (.value .null)
  | .newBuffer => unary (.call h) buffered
  | .newAlias =>
    let v ← popValue .value
    push (.alias v)
  | .aliasValue => unary (.call h) dereferenced
  | _ => throw (.notModeled (.call h))

/-- Runs a step in a context. -/
def runStep (context : Context) : Step → Run Unit
  | .op op => exec context op
  | .call h => invoke context h

/-- Runs some steps in order. -/
def run (context : Context) (steps : List Step) : Run Unit := steps.forM (runStep context)

/-- Takes the result, which has to be all that is on the stack. -/
def takeResult : Run Slot := do
  let result ← pop
  match ← get with
  | [] => return result
  | rest => throw (.unbalanced rest.length)

/-- Converts a slot as generated code would. -/
def convert (context : Context) (s : Slot) (source : Encoding) (hint : Hint) (target : Encoding) :
    Run Slot := do
  match Conversion.plan? source hint target with
  | none => throw (.noPlan source hint target)
  | some c =>
    push s
    run context c.steps
    takeResult

/-- Converts a stored slot through its address. -/
def convertAt (context : Context) (s : Slot) (source : Encoding) (hint : Hint)
    (target : Encoding) : Run Slot := do
  match Conversion.planAt? source hint target with
  | none => throw (.notByAddress source target)
  | some c =>
    push (.address s)
    run context c.steps
    takeResult

end Machine
end Linearizer
