import Linearizer.Generator.State

/-!
# Code of expressions and statements

An expression leaves its value on the stack in the encoding that comes naturally, and is then
converted to what its consumer needs. A variable of a tagged encoding that has an address is
converted through it, without being loaded.

* `Gen.natural` writes the code of an expression, and `Gen.valueAs` converts it;
* `Gen.storeTop` stores the top of the stack into a place;
* `Gen.assign` and `Gen.append` are the statements that change a variable.
-/

namespace Linearizer
namespace Gen

/-! ## Conversions -/

/-- Writes a step of a conversion. -/
def step : Step → Gen Unit
  | .op o => op o
  | .call h => callDirect h

/-- Writes a conversion. -/
def conversion (c : Conversion) : Gen Unit := do
  if c.isIdentity then return
  count fun k => { k with
    conversions := k.conversions + 1
    specialized := k.specialized + c.specialized.toNat }
  c.steps.forM step

/-- Converts the top of the stack. -/
def convert (source : Encoding) (hint : Hint) (target : Encoding) : Gen Unit := do
  match Conversion.plan? source hint target with
  | some c => conversion c
  | none => throw (.noConversion source hint target)

/-- Stores the top of the stack into a place. What the store needs below the value is pushed while
the value waits in a local variable. -/
def storeTop (p : Place) (source : Encoding) (hint : Hint) : Gen Unit := do
  if p.hasReceiver then
    let spill ← temp source
    put (.stloc spill)
    putAll p.prepare
    put (.ldloc spill)
  convert source hint p.storeEncoding
  putAll p.store

/-! ## Expressions -/

/-- Whether arithmetic can be done on doubles alone: both operands are known to be of one numeric
kind, and one is a double. -/
def isFloating (left right : Hint) : Bool :=
  let numeric (h : Hint) := h = .only .int64 || h = .only .double
  numeric left && numeric right && (left = .only .double || right = .only .double)

/-- The encoding in which two operands can be compared by one instruction. -/
def strictEncoding? (left right : Hint) : Option Encoding :=
  if left = .only .int64 && right = .only .int64 then some .int64
  else if left = .only .double && right = .only .double then some .double
  else none

/-- The opcode of an arithmetic operation on doubles. -/
def arithmeticOpcode : Arithmetic → Opcode
  | .add => .add
  | .sub => .sub
  | .mul => .mul

/-- Writes a constant. -/
def literal : Literal → Gen Encoding
  | .null => do
    call .nullValue
    return .value
  | .bool b => do
    op (.ldcI4 (if b then 1 else 0))
    return .bool
  | .int n => do
    op (.ldcI8 n)
    return .int64
  | .double x => do
    op (.ldcR8 x)
    return .double
  | .string s => do
    op (.ldstr s)
    return .string

/-- Converts an expression, whose code is `code`, to an encoding. -/
def valueAs (e : Expr) (code : Gen Encoding) (target : Encoding) : Gen Unit := do
  if let .var v hint := e then
    let p ← place v
    if p.hasAddress then
      if let some c := Conversion.planAt? p.encoding hint target then
        putAll p.loadAddress
        count fun k => { k with byAddress := k.byAddress + 1 }
        conversion c
        return
  let source ← code
  convert source e.hint target

/-- Converts an operand of arithmetic, whose code is `code`, to a number. Text has no direct way to
a number and is boxed first. -/
def numberOperand (e : Expr) (code : Gen Encoding) : Gen Unit := do
  let source ← code
  if source.isTextual then
    convert source e.hint .value
    convert .value e.hint .number
  else convert source e.hint .number

/-- Writes an operation on two operands, whose code is `leftCode` and `rightCode`. -/
def binary (o : BinaryOp) (left right : Expr) (leftCode rightCode : Gen Encoding) :
    Gen Encoding := do
  match o with
  | .arithmetic a =>
    if isFloating left.hint right.hint then
      valueAs left leftCode .double
      valueAs right rightCode .double
      op (arithmeticOpcode a)
      return .double
    else
      numberOperand left leftCode
      numberOperand right rightCode
      call (.arithmetic a)
      return .number
  | .concat =>
    valueAs left leftCode .string
    valueAs right rightCode .string
    call .concat
    return .string
  | .equal | .less =>
    match strictEncoding? left.hint right.hint with
    | some e =>
      valueAs left leftCode e
      valueAs right rightCode e
      op (if o = .equal then .ceq else .clt)
    | none =>
      valueAs left leftCode .value
      valueAs right rightCode .value
      call (if o = .equal then .looseEquals else .looseLess)
    return .bool

mutual

/-- Writes an expression and tells the encoding that its value is left in. -/
def natural : Expr → Gen Encoding
  | .literal l _ => literal l
  | .var v _ => do
    let p ← place v
    putAll p.load
    return p.encoding
  | .binary o left right _ => binary o left right (natural left) (natural right)
  | .not e _ => do
    valueAs e (natural e) .bool
    op (.ldcI4 0)
    op .ceq
    return .bool
  | .array items _ => do
    call .newArray
    arrayItems items
    return .array
  | .new c _ => do
    op (.newobj c)
    return .object (some c)

/-- Adds items to the array on top of the stack. -/
def arrayItems : List Expr → Gen Unit
  | [] => pure ()
  | e :: rest => do
    op .dup
    valueAs e (natural e) .value
    call .arrayAdd
    arrayItems rest

end

/-- Writes an expression in an encoding. -/
def expr (e : Expr) (target : Encoding) : Gen Unit := valueAs e (natural e) target

/-! ## Statements that change a variable -/

/-- Assigns to a variable. -/
def assign (v : VarId) (e : Expr) : Gen Unit := do
  let p ← place v
  putAll p.prepare
  expr e p.storeEncoding
  putAll p.store

/-- Appends text to a variable: in place when it holds a buffer, and through a new string
otherwise. -/
def append (v : VarId) (e : Expr) : Gen Unit := do
  let p ← place v
  if p.encoding = .mstring then
    putAll p.load
    expr e .string
    call .bufferAppend
  else
    putAll p.prepare
    putAll p.load
    convert p.encoding p.hint .string
    expr e .string
    call .concat
    convert .string (.only .string) p.storeEncoding
    putAll p.store

end Gen
end Linearizer
