import Linearizer.Generator.Schedule
import Linearizer.Generator.Switch
import Linearizer.Generator.Value

/-!
# Code of blocks, edges and routines

The code of a block is its label, its statements and its edge, and the edge goes on with the code of
further blocks. All functions that go on with another block take the visit of a block as an
argument; `Gen.visit` closes the circle. A visit inside another one belongs to a block that has
been written, so that a routine with `n` blocks never has more than `n + 1` visits inside each
other.

* `Gen.visit` goes on with a block: it writes it here, branches to it or leaves it to a scope;
* `Gen.scope` opens a scope, writes all that belongs to it and closes it;
* `Graph.generate` writes a whole routine, and `Graph.generateAmong` does so while other routines
  use the registry.
-/

namespace Linearizer

/-- What stays the same while a routine is generated. -/
structure Setting where
  /-- The routine. -/
  graph : Graph
  /-- The options. -/
  options : Options := {}

namespace Gen

/-- The visit of a block, which control may reach from the code right before it. -/
abbrev Visit (m : Type → Type := Gen) := (viaEdge : Bool) → BlockId → m Unit

/-! ## Statements -/

/-- Writes what a statement does. -/
def action : Action → Gen Unit
  | .assign v e => assign v e
  | .append v e => append v e
  | .echo e => do
    expr e .string
    call .echo
  | .eval e => do
    let _ ← natural e
    op .pop
  | .ret none => do
    call .nullValue
    returnTop
  | .ret (some e) => do
    expr e .value
    returnTop
  | .throw e => do
    expr e (.object none)
    op .throw

/-- Writes a statement. -/
def stmt (s : Stmt) : Gen Unit := do
  modify fun state => { state with span := s.span <|> state.span }
  action s.action

/-! ## Scopes -/

/-- Opens a scope. -/
def openScope (kind : ScopeKind) (first hi : BlockId) : Gen Unit := do
  if kind != .routine then
    count fun c => { c with scopesOpened := c.scopesOpened + 1 }
  unqueue first
  modify fun s => { s with scopes := ⟨kind, first, hi, []⟩ :: s.scopes }

/-- Closes a scope, whose code has to have taken from the stack all that it has put there. -/
def closeScope (kind : ScopeKind) : Gen Unit := do
  modify fun s => { s with scopes := s.scopes.tail }
  let depth := (← get).tape.depth
  if depth != 0 then throw (.imbalance depth kind)

section Watched

variable {m : Type → Type} [Monad m] [MonadLiftT Gen m] [Watcher m]

/-- Writes the blocks that wait in the innermost scope, at most `steps` of them. -/
def drain (visit : Visit m) : (steps : Nat) → m Unit
  | 0 => fail .nesting
  | steps + 1 => do
    match ← nextPending with
    | none => pure ()
    | some b =>
      if !(← isEmitted b) then visit false b
      drain visit steps

/-- Writes the first block of a scope and all that comes to wait in it. -/
def scopeBody (setting : Setting) (visit : Visit m) (first : BlockId) : m Unit := do
  visit false first
  drain visit (setting.graph.size + 1)

/-- Opens a scope, writes all that belongs to it, and closes it. -/
def scope (setting : Setting) (visit : Visit m) (kind : ScopeKind) (first hi : BlockId) :
    m Unit := do
  openScope kind first hi
  scopeBody setting visit first
  note (.closeScope kind)
  closeScope kind

end Watched

/-! ## Parts of edges -/

/-- Stores the exception that a handler catches, or drops it. -/
def receive (h : Handler) : Gen Unit := do
  modify fun s => { s with tape := s.tape.assume 1 }
  match h.var with
  | some v =>
    let p ← place v
    storeTop p (.object (some h.cls)) (.only .object)
  | none => op .pop

/-- Starts an enumeration, and tells where the enumerator is. -/
def acquire (subject : Expr) : Gen LocalId := do
  expr subject .value
  call .getEnumerator
  let slot ← declare (.object none)
  put (.stloc slot)
  return slot

/-- Remembers where the enumerator that was started in a block is. -/
def remember (id : BlockId) (slot : LocalId) : Gen Unit :=
  modify fun s => { s with enumerators := (id, slot) :: s.enumerators }

/-- Where the enumerator that was started in a block is. -/
def enumerator (source : BlockId) : Gen LocalId := do
  match (← get).enumerators.lookup source with
  | some slot => return slot
  | none => throw (.noEnumerator source)

/-- Asks an enumerator for its next item. -/
def advance (slot : LocalId) : Gen Unit := do
  put (.ldloc slot)
  call .moveNext

/-- Stores what an enumerator yields into a variable. -/
def storeCurrent (slot : LocalId) (h : Helper) (v : VarId) : Gen Unit := do
  put (.ldloc slot)
  call h
  let p ← place v
  storeTop p .value .any

/-- Stores the item of an enumerator, and its key when there is a variable for it. -/
def storeItem (slot : LocalId) (value : VarId) (key : Option VarId) : Gen Unit := do
  storeCurrent slot .currentValue value
  if let some k := key then storeCurrent slot .currentKey k

/-- Stores the value of a switch, and tells where. -/
def select (value : Expr) : Gen LocalId := do
  let e : Encoding := if value.hint = .only .int64 then .int64 else .value
  expr value e
  let scratch ← temp e
  put (.stloc scratch)
  return scratch

/-- Compares the value of a switch with the constant of a case. -/
def compare (scratch : LocalId) (isInt : Bool) (c : Case) : Gen Unit := do
  put (.ldloc scratch)
  match c.value, isInt with
  | .int n, true =>
    op (.ldcI8 n)
    op .ceq
  | l, _ =>
    if isInt then convert .int64 (.only .int64) .value
    expr (.ofLiteral l) .value
    call .looseEquals

/-- The first part of a jump through a table: the index is stored and compared with the size, before
it is narrowed. -/
def tableIndex (value : Expr) (range : TableRange) : Gen LocalId := do
  expr value .int64
  if range.least != 0 then
    op (.ldcI8 range.least)
    op .sub
  let index ← temp .int64
  put (.stloc index)
  put (.ldloc index)
  op (.ldcI8 (.ofNat range.size))
  op .cltUn
  return index

/-- Loads the index into a jump table. -/
def loadIndex (index : LocalId) : Gen Unit := do
  put (.ldloc index)
  op .convI4

/-- Jumps through a table. -/
def jump (targets : List BlockId) : Gen Unit := do
  count fun c => { c with branches := c.branches + 1, jumpTables := c.jumpTables + 1 }
  put (.switch (targets.map Label.block))

/-- Whether each of some ordinals is less than the next. -/
def isAscending : List BlockId → Bool
  | a :: b :: rest => a < b && isAscending (b :: rest)
  | _ => true

/-! ## Edges -/

section Watched

variable {m : Type → Type} [Monad m] [MonadLiftT Gen m] [Watcher m]

/-- Branches to a block on a condition that is on the stack. A conditional branch cannot leave a
region, so it is turned round there to jump over an exit. -/
def branchTo (setting : Setting) (visit : Visit m) (b : BranchOp) (target : BlockId) : m Unit := do
  note (.branchTo b target)
  match setting.graph.block? target with
  | none => fail (.danglingBlock target)
  | some block =>
    if block.dead then op .pop
    else
      let scope ← currentScope setting.graph
      if !(← isEmitted target) && target < scope.lo then
        fail (.scopeViolation target scope.kind scope.lo)
      else if scope.contains target then
        branch b (.block target)
        schedule setting.graph target
      else
        let skip ← freshLabel
        branch b.negate skip
        visit true target
        put (.label skip)

/-- Writes a handler up to the block `hi`: the exception is stored or dropped first. -/
def handler (setting : Setting) (visit : Visit m) (h : Handler) (hi : BlockId) : m Unit := do
  put (.beginCatch h.cls)
  receive h
  scope setting visit .handler h.target hi

/-- Writes a protected region with its handlers. Its parts are the blocks between the bounds, in
order. -/
def protect (setting : Setting) (visit : Visit m) (body : BlockId) (handlers : List Handler)
    (cleanup : Option BlockId) (next : BlockId) : m Unit := do
  let ends := handlers.map Handler.target ++ cleanup.toList ++ [next]
  if handlers.isEmpty && cleanup.isNone then fail .unguarded
  else if !isAscending (body :: ends) then fail (.disordered (body :: ends))
  else
    put .beginTry
    scope setting visit .body body (ends.headD next)
    (handlers.zip ends.tail).forM fun (h, hi) => handler setting visit h hi
    if let some first := cleanup then
      put .beginFinally
      scope setting visit .cleanup first next
    put .endTry
    visit true next

/-- Moves an enumeration on. -/
def moveNext (setting : Setting) (visit : Visit m) (source : BlockId) (value : VarId)
    (key : Option VarId) (body after : BlockId) : m Unit := do
  let slot ← enumerator source
  advance slot
  branchTo setting visit .brfalse after
  storeItem slot value key
  visit true body

/-- Compares the value in a local variable with the constant of a case, and branches to it. -/
def compareCase (setting : Setting) (visit : Visit m) (scratch : LocalId) (isInt : Bool)
    (c : Case) : m Unit := do
  compare scratch isInt c
  branchTo setting visit .brtrue c.target

/-- Writes a switch as one comparison after the other. -/
def compareChain (setting : Setting) (visit : Visit m) (value : Expr) (cases : List Case)
    (default : BlockId) : m Unit := do
  let scratch ← select value
  cases.forM (compareCase setting visit scratch (value.hint = .only .int64))
  visit true default

/-- Writes a switch as a jump through a table. Integers outside of the table go to the default. -/
def jumpTable (setting : Setting) (visit : Visit m) (value : Expr) (cases : List Case)
    (default : BlockId) (range : TableRange) : m Unit := do
  let targets := range.targets setting.graph cases default
  let index ← tableIndex value range
  branchTo setting visit .brfalse default
  loadIndex index
  jump targets
  targets.forM (schedule setting.graph)
  visit true default

/-- Writes the edge of a block. -/
def edge (setting : Setting) (visit : Visit m) (id : BlockId) : Edge → m Unit
  | .goto target => visit true target
  | .conditional condition ifTrue ifFalse => do
    expr condition .bool
    branchTo setting visit .brfalse ifFalse
    visit true ifTrue
  | .protect body handlers cleanup next => protect setting visit body handlers cleanup next
  | .foreach subject next => do
    let slot ← acquire subject
    remember id slot
    visit true next
  | .moveNext source value key body after =>
    moveNext setting visit source value key body after
  | .switch value cases default => do
    match TableRange.ofCases? setting.options (← currentScope setting.graph) value cases
        default with
    | some range => jumpTable setting visit value cases default range
    | none => compareChain setting visit value cases default

end Watched

/-! ## Blocks -/

/-- Writes the label of a block. -/
def enter (viaEdge : Bool) (id : BlockId) : Gen Unit := do
  unqueue id
  markEmitted id
  if viaEdge then count fun c => { c with fallthroughs := c.fallthroughs + 1 }
  put (.label (.block id))
  count fun c => { c with blocksEmitted := c.blocksEmitted + 1 }

/-- Goes back to a block that has been written. -/
def revisit (id : BlockId) : Gen Unit := do
  count fun c => { c with backEdges := c.backEdges + 1 }
  exitBranch id

section Watched

variable {m : Type → Type} [Monad m] [MonadLiftT Gen m] [Watcher m]

/-- Writes what comes behind the label of a block, and goes on with its edge. -/
def blockBody (setting : Setting) (visit : Visit m) (id : BlockId) (b : Block) : m Unit := do
  (b.statements.forM stmt : Gen Unit)
  if b.endsInTerminal then pure ()
  else
    match b.edge with
    | some e => edge setting visit id e
    | none => fallOff setting.graph

/-- Goes on with a block, where `visit` does so for the blocks that it leads to. -/
def visitWith (setting : Setting) (visit : Visit m) : Visit m := fun viaEdge id => do
  note (.visit viaEdge id)
  match setting.graph.block? id with
  | none => fail (.danglingBlock id)
  | some b =>
    if ← isEmitted id then revisit id
    else if b.dead then pure ()
    else
      let scope ← currentScope setting.graph
      if id < scope.lo then fail (.scopeViolation id scope.kind scope.lo)
      else if id < scope.hi then
        enter viaEdge id
        blockBody setting visit id b
      else
        exitBranch id
        enqueueOuter id

/-- Goes on with a block, with at most `depth` visits inside each other. -/
def visit (setting : Setting) : (depth : Nat) → Visit m
  | 0 => fun viaEdge id => do
    note (.visit viaEdge id)
    fail .nesting
  | depth + 1 => visitWith setting (visit setting depth)

end Watched

/-! ## Routines -/

/-- Decides where a variable is stored. -/
def declarePlace (v : Variable) : Gen Unit := do
  let storage ← match v.home with
    | .frame => Storage.slot <$> declare v.encoding
    | .param index => pure (.argument index)
    | .global => pure (.field v.name)
  modify fun s => { s with places := s.places ++ [⟨storage, v.encoding, v.hint⟩] }

/-- Writes a whole routine, in a monad that may watch. -/
def routineIn (m : Type → Type) [Monad m] [MonadLiftT Gen m] [Watcher m] (setting : Setting) :
    m Unit := do
  let g := setting.graph
  if g.blocks.isEmpty then fail (.danglingBlock Graph.entry)
  else
    (g.vars.forM declarePlace : Gen Unit)
    scope setting (visit setting (g.size + 1)) .routine Graph.entry g.size
    sharedReturn

/-- Writes a whole routine. -/
def routine (setting : Setting) : Gen Unit := routineIn Gen setting

end Gen

/-- What generation makes of a routine. -/
structure Generation where
  /-- Everything that was written, also before a failure. -/
  listing : Listing
  /-- The helpers that have been called so far. -/
  registry : Registry
  /-- What was counted, or why generation failed. -/
  outcome : Except Diagnostic Counters

namespace Generation

/-- What is made of the routine when nothing went wrong. -/
def result (g : Generation) : Except Diagnostic Listing := g.outcome.map fun _ => g.listing

end Generation

/-- Generates the code of a routine while other routines use the registry as well: before each call
of a helper they make the next ones of `peers`. -/
def Graph.generateAmong (g : Graph) (options : Options) (registry : Registry)
    (peers : List (List Helper)) : Generation :=
  match (Gen.routine ⟨g, options⟩).run { registry, peers } with
  | .ok _ s =>
    ⟨s.tape.listing, s.registry, .ok { s.counters with instructions := s.tape.emitted }⟩
  | .error fault s => ⟨s.tape.listing, s.registry, .error ⟨g.name, s.span, fault⟩⟩

/-- Generates the code of a routine, with helpers numbered on from a registry. -/
def Graph.generate (g : Graph) (options : Options) (registry : Registry) : Generation :=
  g.generateAmong options registry []

end Linearizer
