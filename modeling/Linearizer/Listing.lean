import Linearizer.Helper

/-!
# Listings

A listing is what code generation makes of a routine: a sequence of instructions, labels and
markers of protected regions, and the encodings of the local variables. A tape is a listing that
is still being written, with the balance of the evaluation stack so far.

* `Insn` is an element of a listing, and `Insn.effect?` what it does to the stack;
* `Listing.blockOrder`, `labelPosition?`, `branchCount` and `branchesTo` inspect a listing;
* `Tape.put` writes an element and keeps the balance, and `Tape.replay` writes a whole listing.
-/

namespace Linearizer

/-- A block of a routine, by its ordinal. -/
abbrev BlockId := Nat

/-- A local variable of a listing, by its place among the declared ones. -/
abbrev LocalId := Nat

/-- The target of a branch. -/
inductive Label where
  /-- Where the code of a block starts. -/
  | block (id : BlockId)
  /-- A label of the generated code alone. -/
  | fresh (n : Nat)
deriving DecidableEq

/-- The text of a label. -/
def Label.text : Label → String
  | .block id => "B" ++ toString id
  | .fresh n => "L" ++ toString n

/-- An instruction that branches to one label. -/
inductive BranchOp where
  | br
  | brtrue
  | brfalse
  /-- Leaves a protected region or a handler. -/
  | leave
deriving DecidableEq

namespace BranchOp

/-- The mnemonic of a branch. -/
def mnemonic : BranchOp → String
  | .br => "br"
  | .brtrue => "brtrue"
  | .brfalse => "brfalse"
  | .leave => "leave"

/-- Whether the branch takes a truth value from the stack and may not be taken. -/
def isConditional : BranchOp → Bool
  | .brtrue | .brfalse => true
  | _ => false

/-- The branch that is taken when this one is not. -/
def negate : BranchOp → BranchOp
  | .brtrue => .brfalse
  | .brfalse => .brtrue
  | op => op

/-- How many entries the branch takes from the stack. -/
def pops (op : BranchOp) : Nat := op.isConditional.toNat

end BranchOp

/-- An element of a listing. -/
inductive Insn where
  | op (opcode : Opcode)
  | branch (kind : BranchOp) (target : Label)
  /-- Jumps to the label at the index on the stack, and goes on when there is none. -/
  | switch (targets : List Label)
  | label (mark : Label)
  | call (callee : HelperRef)
  | ldloc (slot : LocalId)
  | stloc (slot : LocalId)
  | ldloca (slot : LocalId)
  | beginTry
  | beginCatch (cls : ClassId)
  | beginFinally
  | endTry
deriving DecidableEq

namespace Insn

/-- Whether the element is a branch of some form. -/
def isBranch : Insn → Bool
  | .branch _ _ | .switch _ => true
  | _ => false

/-- The effect of an instruction on the stack; labels and markers are no instructions. -/
def effect? : Insn → Option Effect
  | .op o => some o.effect
  | .branch b _ => some ⟨b.pops, 0⟩
  | .switch _ => some ⟨1, 0⟩
  | .call callee => some callee.helper.effect
  | .ldloc _ | .ldloca _ => some ⟨0, 1⟩
  | .stloc _ => some ⟨1, 0⟩
  | .label _ | .beginTry | .beginCatch _ | .beginFinally | .endTry => none

/-- The text of an element, where `labelName` and `className` write labels and classes. -/
def textWith (labelName : Label → String) (className : ClassId → String) : Insn → String
  | .op o => o.textWith className
  | .branch b target => b.mnemonic ++ " " ++ labelName target
  | .switch targets => "switch (" ++ ", ".intercalate (targets.map labelName) ++ ")"
  | .label l => labelName l ++ ":"
  | .call callee => "call " ++ callee.helper.text
  | .ldloc slot => "ldloc " ++ toString slot
  | .stloc slot => "stloc " ++ toString slot
  | .ldloca slot => "ldloca " ++ toString slot
  | .beginTry => ".try \x7b"
  | .beginCatch c => "\x7d catch " ++ className c ++ " \x7b"
  | .beginFinally => "\x7d finally \x7b"
  | .endTry => "\x7d"

/-- The text of an element, with blocks and classes by number. -/
def text (i : Insn) : String := i.textWith Label.text ClassId.text

end Insn

/-- The generated code of a routine. -/
structure Listing where
  /-- The elements in order. -/
  insns : Array Insn := #[]
  /-- The encodings of the local variables. -/
  locals : Array Encoding := #[]
deriving DecidableEq

namespace Listing

/-- The blocks in the order of their labels. -/
def blockOrder (l : Listing) : List BlockId :=
  l.insns.toList.filterMap fun
    | .label (.block id) => some id
    | _ => none

/-- Where the label of a block stands. -/
def labelPosition? (l : Listing) (id : BlockId) : Option Nat :=
  l.insns.toList.idxOf? (.label (.block id))

/-- How many branches of all forms there are. -/
def branchCount (l : Listing) : Nat := l.insns.toList.countP Insn.isBranch

/-- The branches whose only target is a block. -/
def branchesTo (l : Listing) (id : BlockId) : List BranchOp :=
  l.insns.toList.filterMap fun
    | .branch b (.block target) => if target = id then some b else none
    | _ => none

/-- The helpers called, in order. -/
def calls (l : Listing) : List HelperRef :=
  l.insns.toList.filterMap fun
    | .call callee => some callee
    | _ => none

/-- The elements, one to a line, with blocks and classes by number. -/
def text (l : Listing) : String :=
  l.insns.foldl (fun out i => out ++ i.text ++ "\n") ""

end Listing

/-- A listing being written, with the balance of the stack. -/
structure Tape where
  /-- What has been written. -/
  listing : Listing := {}
  /-- How many entries the stack holds. -/
  depth : Int := 0
  /-- The most entries that the stack has held. -/
  maxDepth : Int := 0
  /-- How many instructions have been written. -/
  emitted : Nat := 0
deriving DecidableEq

namespace Tape

/-- Counts entries that are pushed without an instruction, such as a caught exception. -/
def assume (t : Tape) (count : Int) : Tape :=
  { t with depth := t.depth + count, maxDepth := max t.maxDepth (t.depth + count) }

/-- Writes an element. -/
def put (t : Tape) (i : Insn) : Tape :=
  let listing := { t.listing with insns := t.listing.insns.push i }
  match i.effect? with
  | none => { t with listing }
  | some e =>
    let depth := t.depth - e.pops + e.pushes
    { listing, depth, maxDepth := max t.maxDepth depth, emitted := t.emitted + 1 }

/-- Writes some elements in order. -/
def putAll (t : Tape) (code : List Insn) : Tape := code.foldl put t

/-- Declares a local variable. -/
def declare (t : Tape) (e : Encoding) : LocalId × Tape :=
  let listing := { t.listing with locals := t.listing.locals.push e }
  (t.listing.locals.size, { t with listing })

/-- The tape of a finished listing: the balance without any entry that was only assumed. -/
def replay (l : Listing) : Tape :=
  let tape := putAll {} l.insns.toList
  { tape with listing := { tape.listing with locals := l.locals } }

end Tape
end Linearizer
