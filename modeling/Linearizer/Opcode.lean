import Linearizer.Encoding
import Linearizer.Decimal.Double
import Linearizer.Text.Quoted

/-!
# Opcodes

The instructions of the target format that neither branch nor call. Each takes a fixed number of
entries from the evaluation stack and leaves a fixed number on it.
-/

namespace Linearizer

/-- An instruction that neither branches nor calls. -/
inductive Opcode where
  | nop
  | pop
  | dup
  | ldcI4 (n : Int32)
  | ldcI8 (n : Int64)
  | ldcR8 (x : Float)
  | ldstr (s : String)
  | ldnull
  | ldarg (index : Nat)
  | ldarga (index : Nat)
  | starg (index : Nat)
  /-- Pushes the context that the routine runs in. -/
  | ldctx
  | ldfld (name : String)
  | ldflda (name : String)
  | stfld (name : String)
  | add
  | sub
  | mul
  | ceq
  | clt
  /-- Less than, as unsigned integers or with doubles that cannot be compared. -/
  | cltUn
  | convI4
  | convI8
  | convR8
  | castclass (cls : ClassId)
  | newobj (cls : ClassId)
  | ret
  | throw
  | endfinally
deriving DecidableEq

/-- How many entries an instruction takes from the stack, and how many it leaves. -/
structure Effect where
  /-- The entries taken. -/
  pops : Nat
  /-- The entries left. -/
  pushes : Nat
deriving DecidableEq

namespace Opcode

/-- The effect of an opcode on the stack. -/
def effect : Opcode → Effect
  | .nop | .endfinally => ⟨0, 0⟩
  | .pop | .starg _ | .ret | .throw => ⟨1, 0⟩
  | .dup => ⟨1, 2⟩
  | .ldcI4 _ | .ldcI8 _ | .ldcR8 _ | .ldstr _ | .ldnull | .ldarg _ | .ldarga _ | .ldctx
  | .newobj _ => ⟨0, 1⟩
  | .ldfld _ | .ldflda _ => ⟨1, 1⟩
  | .stfld _ => ⟨2, 0⟩
  | .add | .sub | .mul | .ceq | .clt | .cltUn => ⟨2, 1⟩
  | .convI4 | .convI8 | .convR8 | .castclass _ => ⟨1, 1⟩

/-- Whether control never reaches the instruction after this one. -/
def isTerminator : Opcode → Bool
  | .ret | .throw | .endfinally => true
  | _ => false

/-- The text of an opcode, where `className` writes a class. -/
def textWith (className : ClassId → String) : Opcode → String
  | .nop => "nop"
  | .pop => "pop"
  | .dup => "dup"
  | .ldcI4 n => "ldc.i4 " ++ toString n.toInt
  | .ldcI8 n => "ldc.i8 " ++ toString n.toInt
  | .ldcR8 x => "ldc.r8 " ++ Double.literal.text x
  | .ldstr s => "ldstr " ++ Text.quoted s
  | .ldnull => "ldnull"
  | .ldarg i => "ldarg " ++ toString i
  | .ldarga i => "ldarga " ++ toString i
  | .starg i => "starg " ++ toString i
  | .ldctx => "ldctx"
  | .ldfld name => "ldfld " ++ name
  | .ldflda name => "ldflda " ++ name
  | .stfld name => "stfld " ++ name
  | .add => "add"
  | .sub => "sub"
  | .mul => "mul"
  | .ceq => "ceq"
  | .clt => "clt"
  | .cltUn => "clt.un"
  | .convI4 => "conv.i4"
  | .convI8 => "conv.i8"
  | .convR8 => "conv.r8"
  | .castclass c => "castclass " ++ className c
  | .newobj c => "newobj " ++ className c
  | .ret => "ret"
  | .throw => "throw"
  | .endfinally => "endfinally"

/-- The text of an opcode, with classes by number. -/
def text (op : Opcode) : String := op.textWith ClassId.text

end Opcode
end Linearizer
