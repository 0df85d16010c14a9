import Linearizer.Listing

/-!
# Places

A place is where a variable is stored: a local variable, an argument or a field of the context. Its
code loads it, takes its address and stores into it. A place that holds an alias is written
through: a store changes what the cell holds and leaves the cell in place.
-/

namespace Linearizer

/-- Where a variable is stored. -/
inductive Storage where
  | slot (id : LocalId)
  | argument (index : Nat)
  /-- A field of the context, which has no address. -/
  | field (name : String)
deriving DecidableEq

/-- A stored variable. -/
structure Place where
  /-- Where it is stored. -/
  storage : Storage
  /-- How its value is held there. -/
  encoding : Encoding
  /-- The kinds that its value may have. -/
  hint : Hint
deriving DecidableEq

namespace Place

/-- How a value is held when it is stored into the place. -/
def storeEncoding (p : Place) : Encoding :=
  if p.encoding = .alias then .value else p.encoding

/-- Whether the place is a field. -/
def isField (p : Place) : Bool :=
  match p.storage with
  | .field _ => true
  | _ => false

/-- Whether a store needs something below the value on the stack. -/
def hasReceiver (p : Place) : Bool := p.encoding = .alias || p.isField

/-- Whether the place has an address. -/
def hasAddress (p : Place) : Bool := !p.isField

/-- Pushes the stored value. -/
def load (p : Place) : List Insn :=
  match p.storage with
  | .slot id => [.ldloc id]
  | .argument i => [.op (.ldarg i)]
  | .field name => [.op .ldctx, .op (.ldfld name)]

/-- Pushes the address of the stored value. -/
def loadAddress (p : Place) : List Insn :=
  match p.storage with
  | .slot id => [.ldloca id]
  | .argument i => [.op (.ldarga i)]
  | .field name => [.op .ldctx, .op (.ldflda name)]

/-- Pushes what a store needs below the value. -/
def prepare (p : Place) : List Insn :=
  if p.encoding = .alias then p.load
  else if p.isField then [.op .ldctx]
  else []

/-- Pops the value into the place. -/
def store (p : Place) : List Insn :=
  if p.encoding = .alias then [.op (.stfld "Value")]
  else
    match p.storage with
    | .slot id => [.stloc id]
    | .argument i => [.op (.starg i)]
    | .field name => [.op (.stfld name)]

end Place
end Linearizer
