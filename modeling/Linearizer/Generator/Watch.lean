import Linearizer.Generator.State

/-!
# Generation that can be watched

The functions that schedule blocks run in any monad that can do what computations of `Gen` do. They
tell the monad of their calls: `Gen` itself has no use for that, another monad may keep a record.
-/

namespace Linearizer

/-- What can be watched: the calls of the functions that schedule blocks, and the ends of scopes. -/
inductive Call where
  | visit (viaEdge : Bool) (b : BlockId)
  | branchTo (o : BranchOp) (target : BlockId)
  | schedule (b : BlockId)
  | enqueueOuter (b : BlockId)
  | closeScope (kind : ScopeKind)
deriving DecidableEq

/-- A monad that is told of calls. -/
class Watcher (m : Type → Type) where
  /-- Hears of a call right before it is made. -/
  note : Call → m Unit

export Watcher (note)

instance : Watcher Gen where
  note _ := pure ()

end Linearizer
