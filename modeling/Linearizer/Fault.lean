import Linearizer.Conversion
import Linearizer.Graph.Basic

/-!
# Faults

What can keep a routine from being generated, and the diagnostic that names the routine and the
statement at which it happened.
-/

namespace Linearizer

/-- The kind of a scope: a whole routine, or one part of a protected region. -/
inductive ScopeKind where
  | routine
  /-- The code that is protected. -/
  | body
  /-- A handler of exceptions. -/
  | handler
  /-- The code that runs in any case. -/
  | cleanup
deriving DecidableEq

namespace ScopeKind

/-- The name of a kind. -/
def name : ScopeKind → String
  | .routine => "routine"
  | .body => "try"
  | .handler => "catch"
  | .cleanup => "finally"

/-- Whether control has to leave the scope with an instruction of its own. -/
def isProtected : ScopeKind → Bool
  | .body | .handler => true
  | _ => false

end ScopeKind

/-- A reason why no code can be generated. -/
inductive Fault where
  /-- A protected region has no handler and nothing that runs in any case. -/
  | unguarded
  /-- The parts of a protected region do not follow each other. -/
  | disordered (bounds : List BlockId)
  /-- An enumeration is moved on before it is started. -/
  | noEnumerator (source : BlockId)
  /-- There is no conversion. -/
  | noConversion (source : Encoding) (hint : Hint) (target : Encoding)
  /-- A block belongs to none of the open scopes that could still take it. -/
  | scopeViolation (block : BlockId) (scope : ScopeKind) (start : BlockId)
  /-- A scope is closed with entries left on the stack. -/
  | imbalance (depth : Int) (scope : ScopeKind)
  /-- The routine does not have the block. -/
  | danglingBlock (block : BlockId)
  /-- The routine does not have the variable. -/
  | danglingVariable (var : VarId)
  /-- Control cannot leave the region this way. -/
  | invalidExit (region : ScopeKind)
  /-- The routine was given up before it was started. -/
  | cancelled
  /-- Blocks are nested in each other's code more deeply than there are blocks. -/
  | nesting

namespace Fault

/-- The text of a list of ordinals. -/
def boundsText (bounds : List BlockId) : String :=
  "[" ++ ", ".intercalate (bounds.map fun n => toString n) ++ "]"

/-- The text of a fault. -/
def message : Fault → String
  | .unguarded =>
    "unsupported try/catch edge: protected region has neither a handler nor a finally"
  | .disordered bounds =>
    "unsupported try/catch edge: regions are not in ordinal order: " ++ boundsText bounds
  | .noEnumerator source =>
    "unsupported foreach move-next edge: no enumerator has been acquired in " ++
      (Label.block source).text
  | .noConversion source hint target => Conversion.unsupportedText source hint target
  | .scopeViolation block scope start =>
    "scope violation: block " ++ (Label.block block).text ++ " lies below the " ++ scope.name ++
      " scope starting at ordinal " ++ toString start
  | .imbalance depth scope =>
    "evaluation stack holds " ++ toString depth ++ " value(s) at the close of a " ++ scope.name ++
      " scope"
  | .danglingBlock block =>
    "block " ++ (Label.block block).text ++ " does not belong to the routine graph"
  | .danglingVariable var => "variable #" ++ toString var ++ " is not declared in the routine"
  | .invalidExit region => "control cannot leave a " ++ region.name ++ " region here"
  | .cancelled => "compilation cancelled before the routine started"
  | .nesting => "blocks are nested more deeply than the routine has blocks"

end Fault

/-- A fault with where it happened. -/
structure Diagnostic where
  /-- The routine. -/
  routine : String
  /-- The last statement that was started. -/
  span : Option Span
  /-- What happened. -/
  fault : Fault

/-- The text of a diagnostic. -/
def Diagnostic.message (d : Diagnostic) : String :=
  "internal compiler error in " ++ d.routine ++
    (match d.span with
      | some s => " at " ++ s.text
      | none => "") ++ ": " ++ d.fault.message

end Linearizer
