import Linearizer.Kind

/-!
# Encodings

An encoding says how a value is held on the evaluation stack or in storage: as a bare integer, as a
number that is an integer or a double, as a tagged value of any kind, and so on. The encodings with
a tag can hold values of several kinds.
-/

namespace Linearizer

/-- A class of the routine, by its place in the routine's class table. -/
abbrev ClassId := Nat

/-- The text of a class without its name. -/
def ClassId.text (c : ClassId) : String := "class#" ++ toString c

/-- How a value is held on the stack or in storage. -/
inductive Encoding where
  | bool
  /-- The 32-bit integers of the instruction set, such as the index of a jump table. -/
  | int32
  | int64
  | double
  | string
  /-- A string buffer that can be appended to in place. -/
  | mstring
  /-- An integer or a double, with a tag. -/
  | number
  | array
  /-- An object, whose class may be known. -/
  | object (cls : Option ClassId)
  /-- A value of any kind, with a tag. -/
  | value
  /-- A cell shared between variables that holds a tagged value. -/
  | alias
deriving DecidableEq

namespace Encoding

/-- The name of the encoding, without the class of an object. -/
def name : Encoding → String
  | .bool => "bool"
  | .int32 => "int32"
  | .int64 => "int64"
  | .double => "double"
  | .string => "string"
  | .mstring => "mstring"
  | .number => "number"
  | .array => "array"
  | .object _ => "object"
  | .value => "value"
  | .alias => "alias"

/-- The text of the encoding. -/
def text : Encoding → String
  | .object (some c) => "object<" ++ c.text ++ ">"
  | e => e.name

/-- The encodings that are written as a name alone. -/
def simple : List Encoding :=
  [.bool, .int32, .int64, .double, .string, .mstring, .number, .array, .object none, .value, .alias]

/-- The encoding of a name. -/
def ofName? (name : String) : Option Encoding := simple.find? (·.name = name)

/-- The encoding without the class of an object. -/
def erased : Encoding → Encoding
  | .object _ => .object none
  | e => e

/-- The kinds of value that the encoding can hold. -/
def hint : Encoding → Hint
  | .bool => .only .bool
  | .int32 | .int64 => .only .int64
  | .double => .only .double
  | .string | .mstring => .only .string
  | .number => .number
  | .array => .only .array
  | .object _ => .only .object
  | .value | .alias => .any

/-- Whether the encoding carries a tag. -/
def isTagged : Encoding → Bool
  | .number | .value | .alias => true
  | _ => false

/-- Whether the encoding holds text. -/
def isTextual : Encoding → Bool
  | .string | .mstring => true
  | _ => false

end Encoding

/-- The encoding that holds just the values of a kind; null has none. -/
def Kind.encoding? : Kind → Option Encoding
  | .null => none
  | .bool => some .bool
  | .int64 => some .int64
  | .double => some .double
  | .string => some .string
  | .array => some .array
  | .object => some (.object none)

end Linearizer
