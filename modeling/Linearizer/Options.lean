import Linearizer.Text.Lines
import Linearizer.Text.Quoted

/-!
# Options

What may be chosen about the generated code without changing what it means: whether switches may
use jump tables and when they are worth one. Options come from defaults, from the environment and
from a command line, and are checked before use.
-/

namespace Linearizer

/-- The options of code generation. Numbers are below `2 ^ 64`. -/
structure Options where
  /-- Whether switches may use jump tables. -/
  jumpTables : Bool := true
  /-- The fewest cases that are worth a jump table. -/
  minCases : Nat := 3
  /-- The most table entries for each case. -/
  density : Nat := 2
  /-- How many routines are generated at a time; zero leaves the choice open. -/
  workers : Nat := 0
deriving DecidableEq

/-- What is wrong with options. -/
inductive OptionError where
  /-- A number is out of range. -/
  | outOfRange (name : String) (value least greatest : Nat)
  /-- A variable of the environment is no number. -/
  | notANumber (name value : String)
deriving DecidableEq

/-- The text of an error. -/
def OptionError.message : OptionError → String
  | .outOfRange name value least greatest =>
    name ++ " must be between " ++ toString least ++ " and " ++ toString greatest ++ ", got " ++
      toString value
  | .notANumber name value =>
    "environment variable " ++ name ++ " is not a number: " ++ Text.quoted value

/-- Reads a number below `2 ^ 64`: digits, before which a plus sign may stand. -/
def word64? (cs : List Char) : Option Nat :=
  let digits := match cs with
    | '+' :: rest => rest
    | _ => cs
  if digits.isEmpty || digits.any (!·.isDigit) then none
  else
    let n := digits.foldl (fun n d => 10 * n + (d.toNat - '0'.toNat)) 0
    if n < UInt64.size then some n else none

/-- The settings of the environment that matter, by name. -/
abbrev Environment := String → Option String

namespace Options

/-- Fails unless a number lies between two others. -/
def checkRange (name : String) (value least greatest : Nat) : Except OptionError Unit :=
  if value < least || greatest < value then throw (.outOfRange name value least greatest)
  else pure ()

/-- Fails at the first option that is out of range. -/
def validate (o : Options) : Except OptionError Unit := do
  checkRange "jump_table_min_cases" o.minCases 2 1024
  checkRange "jump_table_density" o.density 1 64
  checkRange "num_workers" o.workers 0 256

/-- The number that a variable of the environment is set to, blanks around it ignored. -/
def environmentNumber (env : Environment) (name : String) : Except OptionError (Option Nat) :=
  match env name with
  | none => pure none
  | some value =>
    match word64? (Text.trim value.toList) with
    | some n => pure (some n)
    | none => throw (.notANumber name value)

/-- The defaults with the settings of the environment over them. -/
def ofEnvironment (env : Environment) : Except OptionError Options := do
  let jumpTables := (env "DYNCG_NO_JUMP_TABLES").isNone
  let minCases ← environmentNumber env "DYNCG_JUMP_TABLE_MIN_CASES"
  let workers ← environmentNumber env "DYNCG_WORKERS"
  let options : Options := {
    jumpTables, minCases := minCases.getD 3, workers := workers.getD 0 }
  options.validate
  return options

end Options
end Linearizer
