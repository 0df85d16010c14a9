import Linearizer.Check.Script
import Linearizer.Dump.Arguments
import Linearizer.Dump.Files
import Linearizer.Text.Plain

/-!
# The command

The command compiles the routines of a text and prints their listings, or checks the directives of
the text.

* `Outcome` is what it prints and why it fails, and `Problem.logged` the reason in a log;
* `source` is the text that it reads, in a tree of files;
* `run` is the command on arguments, an environment and a text.
-/

namespace Linearizer
namespace Dump

/-- Why the command fails. -/
inductive Problem where
  | unreadable (error : ReadError)
  | check (error : Check.CheckError)
  | options (error : OptionError)
  | parse (error : Source.ParseError)
  /-- Some routines could not be compiled. -/
  | failures (count : Nat)
deriving DecidableEq

/-- The text of a problem. -/
def Problem.message : Problem → String
  | .unreadable error => error.message
  | .check error => error.message
  | .options error => error.message
  | .parse error => error.message
  | .failures count => toString count ++ " routine(s) failed"

/-- The text of a problem in a log, which holds plain text. -/
def Problem.logged (p : Problem) : String := Text.plain p.message

/-- What the command does. -/
structure Outcome where
  /-- What it prints. -/
  output : String := ""
  /-- Why it fails, if it does. -/
  problem : Option Problem := none
deriving DecidableEq

/-- The exit code of the command. -/
def Outcome.code (o : Outcome) : Nat := if o.problem.isSome then 1 else 0

/-- The exit code for arguments that cannot be read. -/
def usageCode : Nat := 2

/-- The options of the environment with those of the arguments over them. -/
def options (a : Arguments) (env : Environment) : Except OptionError Options := do
  let o ← Options.ofEnvironment env
  let chosen : Options := { o with
    jumpTables := o.jumpTables && !a.noJumpTables
    minCases := a.minCases.getD o.minCases
    workers := a.workers.getD o.workers }
  chosen.validate
  return chosen

/-- The statistics of a batch as they are printed. -/
def statsText (b : Batch) : String :=
  b.stats.report ++ "\n" ++ "helpers resolved: " ++ toString b.registry.size ++ "\n"

/-- Prints the listings of routines, each with an empty line after it. -/
def print (stats : Bool) (graphs : List Graph) (b : Batch) : Outcome where
  output :=
    String.join (List.zipWith (fun g r => Compiled.render g r ++ "\n") graphs b.results) ++
      if stats then statsText b else ""
  problem := if b.isSuccess then none else some (.failures b.failures.length)

/-- Checks the directives of a text. -/
def check (text : String) : Outcome :=
  match Check.Script.ofText text >>= Check.Script.run with
  | .ok _ => {}
  | .error e => { problem := some (.check e) }

/-- Compiles the routines of a text and prints them. -/
def compile (a : Arguments) (env : Environment) (text : String) : Outcome :=
  match options a env with
  | .error e => { problem := some (.options e) }
  | .ok o =>
    match Source.parse text with
    | .error e => { problem := some (.parse e) }
    | .ok graphs => print a.stats graphs (compileAll o false {} graphs)

/-- The text that the command reads: its file if it has one, and its input otherwise. -/
def source (a : Arguments) (files : Files) (input : String) : Except ReadError String :=
  match a.file with
  | some path => files.read path
  | none => .ok input

/-- The command on a text, or on the reason why it cannot be read. -/
def run (a : Arguments) (env : Environment) (text : Except ReadError String) : Outcome :=
  match text with
  | .error e => { problem := some (.unreadable e) }
  | .ok text => if a.check then check text else compile a env text

end Dump
end Linearizer
