import Linearizer.Generator.State

/-!
# Jump tables

A switch over integers may jump through a table when its cases are close together. The table has an
entry for every integer from the least case to the greatest one; the integers between that are no
case go to the default.
-/

namespace Linearizer

/-- The integers that a jump table has entries for. -/
structure TableRange where
  /-- The first integer. -/
  least : Int64
  /-- How many there are. -/
  size : Nat
deriving DecidableEq

namespace Case

/-- The integer of a case. -/
def int? (c : Case) : Option Int64 :=
  match c.value with
  | .int n => some n
  | _ => none

end Case

namespace TableRange

/-- The range from the least to the greatest of some integers. -/
def spanning? : List Int64 → Option TableRange
  | [] => none
  | n :: rest =>
    let least := rest.foldl min n
    let greatest := rest.foldl max n
    some ⟨least, (greatest.toInt - least.toInt + 1).toNat⟩

/-- The range of the cases of a switch, when it is dense enough for a table and every target lies
in the open scope. -/
def ofCases? (options : Options) (scope : Scope) (value : Expr) (cases : List Case)
    (default : BlockId) : Option TableRange := do
  guard (options.jumpTables && options.minCases ≤ cases.length && value.hint = .only .int64)
  let range ← spanning? (← cases.mapM Case.int?)
  guard (range.size ≤ options.density * cases.length)
  guard ((cases.map Case.target ++ [default]).all scope.contains)
  return range

/-- The targets of the entries: that of the first case with the integer if it is live, and the
default otherwise. -/
def targets (r : TableRange) (g : Graph) (cases : List Case) (default : BlockId) : List BlockId :=
  (List.range r.size).map fun (i : Nat) =>
    match cases.find? fun c => c.int?.map Int64.toInt = some (r.least.toInt + i) with
    | some c => if g.isLive c.target then c.target else default
    | none => default

end TableRange
end Linearizer
