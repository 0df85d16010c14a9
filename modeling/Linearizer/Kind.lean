import Linearizer.Text.Lines

/-!
# Kinds and hints

A value of the source language has one of seven kinds. A hint is the set of kinds that a value may
have at some point of a routine, as far as the analysis before code generation knows.

* `Kind` and `Hint` are the kinds and the sets of them;
* `Hint.singular?` is the only kind of a hint that has just one;
* `Hint.parse?` and `Hint.text` are the written form, such as `int64|double`.
-/

namespace Linearizer

/-- A kind of value of the source language. -/
inductive Kind where
  | null | bool | int64 | double | string | array | object
deriving DecidableEq

namespace Kind

/-- The kinds in the order in which hints are written. -/
def all : List Kind := [.null, .bool, .int64, .double, .string, .array, .object]

/-- The name of a kind. -/
def name : Kind → String
  | .null => "null"
  | .bool => "bool"
  | .int64 => "int64"
  | .double => "double"
  | .string => "string"
  | .array => "array"
  | .object => "object"

/-- The kind of a name. -/
def ofName? (name : String) : Option Kind := all.find? (·.name = name)

end Kind

/-- A set of kinds. -/
structure Hint where
  /-- Whether the value may be null. -/
  null : Bool := false
  /-- Whether the value may be a truth value. -/
  bool : Bool := false
  /-- Whether the value may be an integer. -/
  int64 : Bool := false
  /-- Whether the value may be a double. -/
  double : Bool := false
  /-- Whether the value may be a string. -/
  string : Bool := false
  /-- Whether the value may be an array. -/
  array : Bool := false
  /-- Whether the value may be an object. -/
  object : Bool := false
deriving DecidableEq

namespace Hint

/-- Whether the hint allows the kind. -/
def allows (h : Hint) : Kind → Bool
  | .null => h.null
  | .bool => h.bool
  | .int64 => h.int64
  | .double => h.double
  | .string => h.string
  | .array => h.array
  | .object => h.object

/-- The hint that allows the kinds with a property. -/
def ofPred (p : Kind → Bool) : Hint :=
  ⟨p .null, p .bool, p .int64, p .double, p .string, p .array, p .object⟩

/-- The hint that allows one kind. -/
def only (k : Kind) : Hint := ofPred (· = k)

/-- The hint that allows nothing. -/
def none : Hint := ofPred fun _ => false

/-- The hint that allows every kind. -/
def any : Hint := ofPred fun _ => true

/-- The hint that allows integers and doubles. -/
def number : Hint := ofPred fun k => k = .int64 || k = .double

/-- The kinds that one of two hints allows. -/
def union (a b : Hint) : Hint := ofPred fun k => a.allows k || b.allows k

/-- Whether every kind that `a` allows is allowed by `b`. -/
def isSubsetOf (a b : Hint) : Bool := Kind.all.all fun k => !a.allows k || b.allows k

/-- The kinds that the hint allows. -/
def kinds (h : Hint) : List Kind := Kind.all.filter h.allows

/-- Whether the hint allows nothing. -/
def isEmpty (h : Hint) : Bool := h.kinds.isEmpty

/-- The only kind that the hint allows, if there is just one. -/
def singular? (h : Hint) : Option Kind :=
  match h.kinds with
  | [k] => some k
  | _ => Option.none

/-- The hint as a bit set, the kinds counted from the lowest bit. -/
def bits (h : Hint) : Nat :=
  Kind.all.foldr (fun k n => 2 * n + (h.allows k).toNat) 0

/-- The hint of a bit set; higher bits are ignored. -/
def ofBits (n : Nat) : Hint :=
  ⟨n.testBit 0, n.testBit 1, n.testBit 2, n.testBit 3, n.testBit 4, n.testBit 5, n.testBit 6⟩

/-- The written form: the names of the kinds with bars between them. -/
def text (h : Hint) : String :=
  if h = any then "any"
  else if h.isEmpty then "none"
  else "|".intercalate (h.kinds.map Kind.name)

/-- The hint of one name: a kind, or one of the sets that have a name. -/
def ofName? (name : String) : Option Hint :=
  if name = "any" then some any
  else if name = "number" then some number
  else if name = "none" then some none
  else (Kind.ofName? name).map only

/-- The union of the hints of some names. -/
def ofNames? : List String → Option Hint
  | [] => some none
  | name :: rest => do
    let h ← ofName? name
    let others ← ofNames? rest
    return h.union others

/-- Reads the written form; blanks around a name are ignored. -/
def parse? (text : String) : Option Hint :=
  ofNames? ((Text.splitAt '|' text.toList).map fun name => String.ofList (Text.trim name))

end Hint
end Linearizer
