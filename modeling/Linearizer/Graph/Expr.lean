import Linearizer.Helper

/-!
# Expressions

The expressions of a routine. Each carries the hint that flow analysis found for it; the functions
at the end make expressions with the hint that follows from their parts.
-/

namespace Linearizer

/-- A variable of a routine, by its place among the declared ones. -/
abbrev VarId := Nat

/-- A constant. -/
inductive Literal where
  | null
  | bool (b : Bool)
  | int (n : Int64)
  | double (x : Float)
  | string (s : String)
deriving DecidableEq

namespace Literal

/-- The kind of a constant, as a hint. -/
def hint : Literal → Hint
  | .null => .only .null
  | .bool _ => .only .bool
  | .int _ => .only .int64
  | .double _ => .only .double
  | .string _ => .only .string

/-- The text of a constant. -/
def text : Literal → String
  | .null => "null"
  | .bool b => if b then "true" else "false"
  | .int n => toString n.toInt
  | .double x => Double.literal.text x
  | .string s => Text.quoted s

end Literal

/-- An operator with two operands. -/
inductive BinaryOp where
  | arithmetic (op : Arithmetic)
  | concat
  | equal
  | less
deriving DecidableEq

namespace BinaryOp

/-- The operators. -/
def all : List BinaryOp :=
  [.arithmetic .add, .arithmetic .sub, .arithmetic .mul, .concat, .equal, .less]

/-- The name of an operator. -/
def name : BinaryOp → String
  | .arithmetic .add => "add"
  | .arithmetic .sub => "sub"
  | .arithmetic .mul => "mul"
  | .concat => "concat"
  | .equal => "eq"
  | .less => "lt"

/-- The operator of a name. -/
def ofName? (name : String) : Option BinaryOp := all.find? (·.name = name)

/-- The hint of the result. Arithmetic gives a double when one operand is one and the other is a
number; integers may overflow into a double. -/
def resultHint (op : BinaryOp) (left right : Hint) : Hint :=
  match op with
  | .arithmetic _ =>
    if (left = .only .double && right.isSubsetOf .number) ||
        (right = .only .double && left.isSubsetOf .number) then .only .double
    else .number
  | .concat => .only .string
  | .equal | .less => .only .bool

end BinaryOp

/-- An expression with its hint. -/
inductive Expr where
  | literal (value : Literal) (hint : Hint)
  | var (id : VarId) (hint : Hint)
  | binary (op : BinaryOp) (left right : Expr) (hint : Hint)
  | not (operand : Expr) (hint : Hint)
  | array (items : List Expr) (hint : Hint)
  | new (cls : ClassId) (hint : Hint)

mutual

/-- Whether two expressions are equal. -/
protected def Expr.decEq : (a b : Expr) → Decidable (a = b)
  | .literal l h, b => match b with
    | .literal l' h' => decidable_of_iff (l = l' ∧ h = h') (by simp)
    | .var .. | .binary .. | .not .. | .array .. | .new .. => isFalse nofun
  | .var v h, b => match b with
    | .var v' h' => decidable_of_iff (v = v' ∧ h = h') (by simp)
    | .literal .. | .binary .. | .not .. | .array .. | .new .. => isFalse nofun
  | .binary o x y h, b => match b with
    | .binary o' x' y' h' =>
      have := Expr.decEq x x'
      have := Expr.decEq y y'
      decidable_of_iff (o = o' ∧ x = x' ∧ y = y' ∧ h = h') (by simp)
    | .literal .. | .var .. | .not .. | .array .. | .new .. => isFalse nofun
  | .not x h, b => match b with
    | .not x' h' =>
      have := Expr.decEq x x'
      decidable_of_iff (x = x' ∧ h = h') (by simp)
    | .literal .. | .var .. | .binary .. | .array .. | .new .. => isFalse nofun
  | .array xs h, b => match b with
    | .array xs' h' =>
      have := Expr.decEqAll xs xs'
      decidable_of_iff (xs = xs' ∧ h = h') (by simp)
    | .literal .. | .var .. | .binary .. | .not .. | .new .. => isFalse nofun
  | .new c h, b => match b with
    | .new c' h' => decidable_of_iff (c = c' ∧ h = h') (by simp)
    | .literal .. | .var .. | .binary .. | .not .. | .array .. => isFalse nofun

/-- Whether two lists of expressions are equal. -/
protected def Expr.decEqAll : (xs ys : List Expr) → Decidable (xs = ys)
  | [], [] => isTrue rfl
  | [], _ :: _ | _ :: _, [] => isFalse nofun
  | x :: xs, y :: ys =>
    have := Expr.decEq x y
    have := Expr.decEqAll xs ys
    decidable_of_iff (x = y ∧ xs = ys) (by simp)

end

instance : DecidableEq Expr := Expr.decEq

namespace Expr

/-- The hint of an expression. -/
def hint : Expr → Hint
  | .literal _ h | .var _ h | .binary _ _ _ h | .not _ h | .array _ h | .new _ h => h

/-- The expression with another hint. -/
def withHint (h : Hint) : Expr → Expr
  | .literal l _ => .literal l h
  | .var v _ => .var v h
  | .binary op l r _ => .binary op l r h
  | .not e _ => .not e h
  | .array items _ => .array items h
  | .new c _ => .new c h

/-- A constant with its own hint. -/
def ofLiteral (l : Literal) : Expr := .literal l l.hint

/-- An operation with the hint of its result. -/
def ofBinary (op : BinaryOp) (left right : Expr) : Expr :=
  .binary op left right (op.resultHint left.hint right.hint)

/-- A negation, which is a truth value. -/
def ofNot (operand : Expr) : Expr := .not operand (.only .bool)

/-- A new array. -/
def ofItems (items : List Expr) : Expr := .array items (.only .array)

/-- A new object. -/
def ofClass (c : ClassId) : Expr := .new c (.only .object)

end Expr
end Linearizer
