import Linearizer.Fault
import Linearizer.Options
import Linearizer.Place
import Linearizer.Session

/-!
# The state of generation

Generation is a computation on a state that holds the tape, the open scopes and what is known about
each block. It can fail, and what was written before a failure stays in the state.

* `Scope` is an open region with the blocks that it still has to write;
* `State` is the whole state, and `Gen` the computations on it;
* the functions of `Gen` here write single instructions and calls, and declare local variables.
-/

namespace Linearizer

/-- An open region: the blocks from `lo` up to but not including `hi`. -/
structure Scope where
  /-- What it is part of. -/
  kind : ScopeKind
  /-- Its first block. -/
  lo : BlockId
  /-- The first block after it. -/
  hi : BlockId
  /-- Its blocks that are yet to be written, in ascending order. -/
  pending : List BlockId := []
deriving DecidableEq

namespace Scope

/-- Whether a block lies in the region. -/
def contains (s : Scope) (b : BlockId) : Bool := s.lo ≤ b && b < s.hi

/-- Puts a block into an ascending list, unless it is there. -/
def insert (b : BlockId) : List BlockId → List BlockId
  | [] => [b]
  | c :: rest => if b < c then b :: c :: rest else if b = c then c :: rest else c :: insert b rest

/-- Leaves a block to be written later. -/
def enqueue (s : Scope) (b : BlockId) : Scope := { s with pending := insert b s.pending }

/-- Takes a block off the ones to be written. -/
def dequeue (s : Scope) (b : BlockId) : Scope := { s with pending := s.pending.filter (· != b) }

end Scope

/-- The state of generation. -/
structure State where
  /-- What has been written. -/
  tape : Tape := {}
  /-- The helpers that have been called. -/
  registry : Registry
  /-- The open scopes, the innermost one first. -/
  scopes : List Scope := []
  /-- The blocks that have been written. -/
  emitted : List BlockId := []
  /-- The blocks that an open scope has yet to write. -/
  queued : List BlockId := []
  /-- The local variables that hold the enumerators started in blocks. -/
  enumerators : List (BlockId × LocalId) := []
  /-- Where the variables of the routine are stored. -/
  places : List Place := []
  /-- The local variables that hold a value for a moment, one for each encoding. -/
  temps : List (Encoding × LocalId) := []
  /-- The local variable and the label that returns from protected regions share. -/
  returnSlot : Option (LocalId × Label) := none
  /-- The number of the next label. -/
  nextLabel : Nat := 0
  /-- The last statement that was started and has a place in the source. -/
  span : Option Span := none
  /-- What has been counted. -/
  counters : Counters := {}
  /-- What other routines that share the registry call before each of the next calls. -/
  peers : List (List Helper) := []

/-- A computation that writes code. -/
abbrev Gen := EStateM Fault State

namespace Gen

/-- Writes an element. -/
def put (i : Insn) : Gen Unit := modify fun s => { s with tape := s.tape.put i }

/-- Writes some elements in order. -/
def putAll (code : List Insn) : Gen Unit := modify fun s => { s with tape := s.tape.putAll code }

/-- Writes an opcode. -/
def op (o : Opcode) : Gen Unit := put (.op o)

/-- Changes what has been counted. -/
def count (f : Counters → Counters) : Gen Unit :=
  modify fun s => { s with counters := f s.counters }

/-- Writes a branch. -/
def branch (b : BranchOp) (target : Label) : Gen Unit := do
  count fun c => { c with branches := c.branches + 1 }
  put (.branch b target)

/-- Writes the call of a helper whose arguments are all on the stack. -/
def callDirect (h : Helper) : Gen Unit := do
  let s ← get
  let (callee, registry) := (s.registry.after (s.peers.headD [])).resolve h
  set { s with registry, peers := s.peers.tail }
  count fun c => { c with helperCalls := c.helperCalls + 1 }
  put (.call callee)

/-- Writes the call of a helper, with the context when it needs one. -/
def call (h : Helper) : Gen Unit := do
  if h.needsContext then op .ldctx
  callDirect h

/-- Declares a local variable. -/
def declare (e : Encoding) : Gen LocalId := do
  let s ← get
  let (id, tape) := s.tape.declare e
  set { s with tape }
  return id

/-- The local variable that holds a value of an encoding for a moment. -/
def temp (e : Encoding) : Gen LocalId := do
  match (← get).temps.lookup e with
  | some id => return id
  | none =>
    let id ← declare e
    modify fun s => { s with temps := (e, id) :: s.temps }
    return id

/-- A label that was not used before. -/
def freshLabel : Gen Label := do
  let s ← get
  set { s with nextLabel := s.nextLabel + 1 }
  return .fresh s.nextLabel

/-- Where a variable is stored. -/
def place (v : VarId) : Gen Place := do
  match (← get).places[v]? with
  | some p => return p
  | none => throw (.danglingVariable v)

end Gen
end Linearizer
