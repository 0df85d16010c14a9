import Linearizer.Graph.Basic

/-!
# Rendered listings

A listing next to the routine that it comes from is written with the names of blocks and classes.
The code of a region is indented by one step more than what is around it, and labels by one step
less than the code that they mark.
-/

namespace Linearizer

namespace Graph

/-- The name of a label: that of its block, if the routine has it. -/
def labelName (g : Graph) (l : Label) : String :=
  match l with
  | .block id => ((g.block? id).map (·.name)).getD l.text
  | .fresh _ => l.text

/-- The name of a class. -/
def className (g : Graph) (c : ClassId) : String := (g.className? c).getD c.text

end Graph

namespace Insn

/-- The indentation of an element after code of indentation `indent`, which is at least one. -/
def indentBefore (indent : Nat) : Insn → Nat
  | .label _ => indent - 1
  | .beginCatch _ | .beginFinally | .endTry => max (indent - 1) 1
  | _ => indent

/-- The indentation of the code after an element. -/
def indentAfter (indent : Nat) : Insn → Nat
  | .beginTry => indent + 1
  | .beginCatch _ | .beginFinally => max (indent - 1) 1 + 1
  | .endTry => max (indent - 1) 1
  | _ => indent

end Insn

namespace Listing

/-- The lines of some code that starts at an indentation. -/
def renderCode (g : Graph) : Nat → List Insn → List String
  | _, [] => []
  | indent, i :: rest =>
    let margin := String.ofList (List.replicate (2 * i.indentBefore indent) ' ')
    (margin ++ i.textWith g.labelName g.className) :: renderCode g (i.indentAfter indent) rest

/-- The listing with the names of its routine, one element a line. -/
def render (l : Listing) (g : Graph) : String :=
  String.join ((("routine " ++ g.name) :: renderCode g 1 l.insns.toList).map (· ++ "\n"))

end Listing
end Linearizer
