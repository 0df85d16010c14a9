import Linearizer.Generator.Watch

/-!
# Scheduling of blocks

Every block is written once, inside the region that it belongs to. A block that cannot be written
where control reaches it waits in the innermost open scope that it lies in, and a scope writes what
waits in it in ascending order before it is closed. How control leaves a scope depends on the
regions that it leaves on the way.

* `Gen.exitBranch` transfers control to a block from the open scope;
* `Gen.schedule` and `Gen.enqueueOuter` leave a block to an open scope, and can be watched;
* `Gen.returnTop` returns from the routine.
-/

namespace Linearizer
namespace Gen

/-- Whether a block has been written. -/
def isEmitted (b : BlockId) : Gen Bool := return (← get).emitted.contains b

/-- The innermost open scope; the whole routine when none is open. -/
def currentScope (g : Graph) : Gen Scope := do
  match (← get).scopes with
  | scope :: _ => return scope
  | [] => return ⟨.routine, 0, g.size, []⟩

/-- Takes a block off the ones that wait. -/
def unqueue (b : BlockId) : Gen Unit := modify fun s =>
  if s.queued.contains b then
    { s with
      queued := s.queued.filter (· != b)
      scopes := s.scopes.map (·.dequeue b) }
  else s

/-- Notes that a block is written. -/
def markEmitted (b : BlockId) : Gen Unit := modify fun s => { s with emitted := b :: s.emitted }

/-! ## Leaving a scope -/

/-- How control gets from the innermost of some scopes to a block. -/
inductive Exit where
  | branch (op : BranchOp)
  /-- The end of the code that runs in any case, after which the region goes on by itself. -/
  | endfinally
deriving DecidableEq

/-- The exit to a block: a plain branch when no scope is left, and otherwise by the kinds of the
scopes that are. -/
def exitTo (scopes : List Scope) (b : BlockId) : Exit :=
  match scopes.takeWhile (!·.contains b) with
  | [] => .branch .br
  | innermost :: outer =>
    if innermost.kind = .cleanup then .endfinally
    else if innermost.kind.isProtected || outer.any (·.kind.isProtected) then .branch .leave
    else .branch .br

/-- Transfers control to a block. -/
def exitBranch (b : BlockId) : Gen Unit := do
  match exitTo (← get).scopes b with
  | .branch o => branch o (.block b)
  | .endfinally => op .endfinally

/-! ## Blocks that wait -/

/-- Leaves a block to the first of some scopes that it lies in. -/
def enqueueIn (b : BlockId) : List Scope → Option (List Scope)
  | [] => none
  | scope :: rest =>
    if scope.contains b then some (scope.enqueue b :: rest)
    else (enqueueIn b rest).map (scope :: ·)

/-- Fails. -/
def fail (e : Fault) : Gen Unit := throw e

/-- Leaves a block to the innermost scope around the open one that it lies in, unless it waits
already. -/
def defer (b : BlockId) : Gen Unit := do
  let s ← get
  if s.queued.contains b then return
  match enqueueIn b s.scopes.tail with
  | some outer =>
    set { s with
      scopes := s.scopes.take 1 ++ outer
      queued := b :: s.queued
      counters := { s.counters with deferred := s.counters.deferred + 1 } }
  | none =>
    match s.scopes.getLast? with
    | some outermost => throw (.scopeViolation b outermost.kind outermost.lo)
    | none => throw (.scopeViolation b .routine 0)

/-- Leaves a block to the innermost scope. -/
def claim (b : BlockId) : Gen Unit := do
  unqueue b
  modify fun s => { s with
    scopes := s.scopes.modifyHead (·.enqueue b)
    queued := b :: s.queued }

section Watched

variable {m : Type → Type} [Monad m] [MonadLiftT Gen m] [Watcher m]

/-- Leaves a block to the innermost scope around the open one that it lies in. -/
def enqueueOuter (b : BlockId) : m Unit := do
  note (.enqueueOuter b)
  defer b

/-- Sees to it that a block is written by a scope that it lies in. -/
def schedule (g : Graph) (b : BlockId) : m Unit := do
  note (.schedule b)
  match g.block? b with
  | none => fail (.danglingBlock b)
  | some block =>
    if block.dead || (← isEmitted b) then pure ()
    else if (← currentScope g).contains b then claim b
    else enqueueOuter b

end Watched

/-- Takes the first block that waits in the innermost scope. -/
def nextPending : Gen (Option BlockId) := do
  let s ← get
  match s.scopes with
  | scope :: outer =>
    match scope.pending with
    | b :: rest =>
      set { s with
        scopes := { scope with pending := rest } :: outer
        queued := s.queued.filter (· != b) }
      return some b
    | [] => return none
  | [] => return none

/-! ## Returns -/

/-- Returns the top of the stack. From inside a protected region the value goes through a local
variable to an exit that all such returns share; code that runs in any case cannot return. -/
def returnTop : Gen Unit := do
  let s ← get
  if s.scopes.any (·.kind = .cleanup) then throw (.invalidExit .cleanup)
  if !s.scopes.any (·.kind.isProtected) then op .ret
  else
    let (slot, label) ← match s.returnSlot with
      | some shared => pure shared
      | none => do
        let slot ← declare .value
        let label ← freshLabel
        modify fun s => { s with returnSlot := some (slot, label) }
        pure (slot, label)
    put (.stloc slot)
    branch .leave label

/-- Writes the exit that returns from protected regions share. -/
def sharedReturn : Gen Unit := do
  if let some (slot, label) := (← get).returnSlot then
    put (.label label)
    put (.ldloc slot)
    op .ret

/-- Ends a block without an edge: the code that runs in any case ends, and a routine returns
null. -/
def fallOff (g : Graph) : Gen Unit := do
  if (← currentScope g).kind = .cleanup then op .endfinally
  else
    call .nullValue
    returnTop

end Gen
end Linearizer
