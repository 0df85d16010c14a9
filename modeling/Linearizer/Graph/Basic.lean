import Linearizer.Graph.Expr
import Linearizer.Listing

/-!
# Routine graphs

A routine is a graph of blocks. A block holds statements and at most one edge to other blocks; its
place in the list of blocks is its ordinal, and the first block is the entry. The blocks of a loop,
of a protected region or of a handler have neighbouring ordinals. An edge may name blocks and
variables that the routine does not have.
-/

namespace Linearizer

/-- A place in a source text. Lines and columns are natural numbers: no text is too long. -/
structure Span where
  /-- The line, counted from one. -/
  line : Nat
  /-- The column, counted from one. -/
  column : Nat
deriving DecidableEq

/-- The text of a place. -/
def Span.text (s : Span) : String := toString s.line ++ ":" ++ toString s.column

/-- What a statement does. -/
inductive Action where
  | assign (var : VarId) (value : Expr)
  /-- Appends the text of a value to a variable. -/
  | append (var : VarId) (value : Expr)
  | echo (value : Expr)
  /-- Evaluates an expression and drops its value. -/
  | eval (value : Expr)
  /-- Returns a value, or null. -/
  | ret (value : Option Expr)
  | throw (value : Expr)
deriving DecidableEq

/-- Whether control never goes on after the action. -/
def Action.isTerminal : Action → Bool
  | .ret _ | .throw _ => true
  | _ => false

/-- A statement. -/
structure Stmt where
  /-- What it does. -/
  action : Action
  /-- Where it comes from. -/
  span : Option Span := none
deriving DecidableEq

/-- A handler of a protected region. -/
structure Handler where
  /-- The class of the exceptions that it handles. -/
  cls : ClassId
  /-- The variable that the exception is stored in. -/
  var : Option VarId
  /-- Its first block. -/
  target : BlockId
deriving DecidableEq

/-- A case of a switch. -/
structure Case where
  /-- The constant that the value is compared with. -/
  value : Literal
  /-- Where control goes when they are equal. -/
  target : BlockId
deriving DecidableEq

/-- How control leaves a block. -/
inductive Edge where
  | goto (target : BlockId)
  | conditional (condition : Expr) (ifTrue ifFalse : BlockId)
  /-- Runs a protected region with its handlers, and goes on at `next`. -/
  | protect (body : BlockId) (handlers : List Handler) (cleanup : Option BlockId) (next : BlockId)
  /-- Starts to enumerate a value. -/
  | foreach (subject : Expr) (moveNext : BlockId)
  /-- Moves the enumeration started in `source` on, and stores what it yields. -/
  | moveNext (source : BlockId) (value : VarId) (key : Option VarId) (body after : BlockId)
  | switch (value : Expr) (cases : List Case) (default : BlockId)
deriving DecidableEq

namespace Edge

/-- The name of the form of an edge. -/
def kindName : Edge → String
  | .goto _ => "simple"
  | .conditional _ _ _ => "conditional"
  | .protect _ _ _ _ => "try/catch"
  | .foreach _ _ => "foreach enumeree"
  | .moveNext _ _ _ _ _ => "foreach move-next"
  | .switch _ _ _ => "switch"

/-- The blocks that an edge leads to. -/
def successors : Edge → List BlockId
  | .goto target => [target]
  | .conditional _ ifTrue ifFalse => [ifTrue, ifFalse]
  | .protect body handlers cleanup next =>
    body :: handlers.map Handler.target ++ cleanup.toList ++ [next]
  | .foreach _ next => [next]
  | .moveNext _ _ _ body after => [body, after]
  | .switch _ cases default => cases.map Case.target ++ [default]

end Edge

/-- A block of a routine. -/
structure Block where
  /-- Its name. -/
  name : String
  /-- Whether it is known that control never reaches it. -/
  dead : Bool := false
  /-- Its statements in order. -/
  statements : List Stmt := []
  /-- How control leaves it after the statements. -/
  edge : Option Edge := none
deriving DecidableEq

/-- Whether the last statement keeps control from going on. -/
def Block.endsInTerminal (b : Block) : Bool := b.statements.getLast?.any (·.action.isTerminal)

/-- Where a variable lives. -/
inductive VarHome where
  /-- In the routine's own frame. -/
  | frame
  | param (index : Nat)
  /-- In the context, for all routines. -/
  | global
deriving DecidableEq

/-- A variable of a routine. -/
structure Variable where
  /-- Its name. -/
  name : String
  /-- Where it lives. -/
  home : VarHome
  /-- How its value is held. -/
  encoding : Encoding
  /-- The kinds that its value may have. -/
  hint : Hint
deriving DecidableEq

/-- A routine. -/
structure Graph where
  /-- Its name. -/
  name : String
  /-- Its variables. -/
  vars : List Variable := []
  /-- The names of the classes that it mentions. -/
  classes : List String := []
  /-- Its blocks by ordinal. -/
  blocks : List Block := []
deriving DecidableEq

namespace Graph

/-- The block that a routine starts in. -/
def entry : BlockId := 0

/-- How many blocks there are. -/
def size (g : Graph) : Nat := g.blocks.length

/-- The block of an ordinal. -/
def block? (g : Graph) (id : BlockId) : Option Block := g.blocks[id]?

/-- Whether the block exists and is not known to be dead. -/
def isLive (g : Graph) (id : BlockId) : Bool := (g.block? id).any (!·.dead)

theorem lt_size_of_isLive {g : Graph} {id : BlockId} (h : g.isLive id = true) : id < g.size := by
  cases hb : g.block? id with
  | none => simp [isLive, hb] at h
  | some block => exact (List.getElem?_eq_some_iff.mp hb).1

/-- The name of a class. -/
def className? (g : Graph) (c : ClassId) : Option String := g.classes[c]?

/-- The first variable of a name. -/
def findVar? (g : Graph) (name : String) : Option VarId :=
  g.vars.findIdx? (·.name = name)

/-- The first block of a name. -/
def findBlock? (g : Graph) (name : String) : Option BlockId :=
  g.blocks.findIdx? (·.name = name)

/-- The hint that a variable is declared with; nothing is known of one that is not declared. -/
def varHint (g : Graph) (v : VarId) : Hint := (g.vars[v]?.map (·.hint)).getD .any

/-- How many parameters there are. -/
def paramCount (g : Graph) : Nat :=
  g.vars.countP fun v => match v.home with
    | .param _ => true
    | _ => false

/-- Declares a variable. -/
def declare (g : Graph) (v : Variable) : Graph := { g with vars := g.vars ++ [v] }

/-- Declares the next parameter. Its number is a natural number, so that however many there are, no
two of them get the same one. -/
def declareParam (g : Graph) (name : String) (e : Encoding) (h : Hint) : Graph :=
  g.declare ⟨name, .param g.paramCount, e, h⟩

/-- The number of a class, which is added to the table when it is new. -/
def internClass (g : Graph) (name : String) : ClassId × Graph :=
  match g.classes.idxOf? name with
  | some c => (c, g)
  | none => (g.classes.length, { g with classes := g.classes ++ [name] })

/-- The blocks that the edge of a block leads to. -/
def successors (g : Graph) (id : BlockId) : List BlockId :=
  (((g.block? id).bind (·.edge)).map Edge.successors).getD []

end Graph

/-- A search through the blocks of a routine. -/
structure Search where
  /-- The blocks that have been found. -/
  found : List BlockId := []
  /-- The blocks that are yet to be looked at, the next one first; a block may stand here twice. -/
  stack : List BlockId := [Graph.entry]

namespace Search

/-- Looks at the next block. One that exists, is live and has not been found is found now, and the
blocks that its edge leads to are to be looked at, the last one first. -/
def next? (g : Graph) (s : Search) : Option Search :=
  match s.stack with
  | [] => none
  | id :: rest =>
    if g.isLive id && !s.found.contains id then
      some ⟨id :: s.found, (g.successors id).reverse ++ rest⟩
    else some { s with stack := rest }

theorem next?_cases {g : Graph} {s t : Search} (h : s.next? g = some t) :
    ∃ id rest, s.stack = id :: rest ∧
      ((g.isLive id = true ∧ id ∉ s.found ∧
          t = ⟨id :: s.found, (g.successors id).reverse ++ rest⟩) ∨
        ((g.isLive id = true → id ∈ s.found) ∧ t = ⟨s.found, rest⟩)) := by
  unfold next? at h
  cases hs : s.stack with
  | nil => simp [hs] at h
  | cons id rest =>
    refine ⟨id, rest, rfl, ?_⟩
    simp only [hs] at h
    split at h
    next hid => exact .inl ⟨by simp_all, by simp_all, (Option.some.inj h).symm⟩
    next hid => exact .inr ⟨by simpa using hid, (Option.some.inj h).symm⟩

/-- The blocks that have not been found. -/
def unfound (g : Graph) (s : Search) : List BlockId :=
  (List.range g.size).filter (!s.found.contains ·)

/-- How many blocks may still be looked at: those on the stack, and those that the edges of the
blocks that have not been found lead to. -/
def budget (g : Graph) (s : Search) : Nat :=
  (s.stack ++ (s.unfound g).flatMap g.successors).length

theorem unfound_perm {g : Graph} {s : Search} {id : BlockId} (stack : List BlockId)
    (hlive : g.isLive id = true) (hnew : id ∉ s.found) :
    (s.unfound g).Perm (id :: unfound g ⟨id :: s.found, stack⟩) := by
  have hmem : id ∈ s.unfound g :=
    List.mem_filter.mpr ⟨List.mem_range.mpr (Graph.lt_size_of_isLive hlive), by simpa using hnew⟩
  have hnodup : (s.unfound g).Nodup := List.nodup_range.filter _
  have herase : (s.unfound g).erase id = unfound g ⟨id :: s.found, stack⟩ := by
    rw [hnodup.erase_eq_filter, unfound, unfound, List.filter_filter]
    congr 1
    funext b
    rw [List.contains_cons, Bool.not_or]
    rfl
  exact herase ▸ List.perm_cons_erase hmem

/-- Each look at a block takes one off the budget. -/
theorem budget_next? {g : Graph} {s t : Search} (h : s.next? g = some t) :
    s.budget g = t.budget g + 1 := by
  obtain ⟨id, rest, hs, ⟨hlive, hnew, rfl⟩ | ⟨-, rfl⟩⟩ := next?_cases h
  · have hperm := (unfound_perm ((g.successors id).reverse ++ rest) hlive hnew).flatMap_right
      g.successors
    simp only [budget, hs, List.length_append, List.length_cons, List.length_reverse,
      hperm.length_eq, List.flatMap_cons]
    omega
  · simp only [budget, unfound, hs, List.cons_append, List.length_cons]

/-- The search when no block is left to be looked at. -/
def finish (g : Graph) (s : Search) : Search :=
  match _h : s.next? g with
  | none => s
  | some t => t.finish g
termination_by s.budget g
decreasing_by
  rw [budget_next? _h]
  exact Nat.lt_succ_self _

end Search

namespace Graph

/-- The blocks that control may reach from the entry without passing a dead one, in order. -/
def reachable (g : Graph) : List BlockId :=
  (List.range g.size).filter (Search.finish g {}).found.contains

end Graph
end Linearizer
