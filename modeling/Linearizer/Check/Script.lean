import Linearizer.Check.Match
import Linearizer.Compile
import Linearizer.Source.Routine

/-!
# Check scripts

A script is a routine text with the directives and the options that its comments hold. It is run by
compiling its routines and following the directives through their listings.

* `Script.ofText` reads a script;
* `Script.output` is what its directives are about;
* `Script.run` checks it.
-/

namespace Linearizer
namespace Check

/-- A routine text that says what its listings have to look like. -/
structure Script where
  /-- The options that its routines are compiled with. -/
  options : Options := {}
  /-- What is expected. -/
  directives : List Directive := []
  /-- The routine text. -/
  source : String := ""

/-- Reads the options of a run. -/
def runOptions : Options → List (List Char) → Except CheckError Options
  | o, [] => pure o
  | o, word :: rest =>
    match String.ofList word with
    | "--no-jump-tables" => runOptions { o with jumpTables := false } rest
    | "--jump-table-min-cases" =>
      match rest with
      | [] => throw (.unknownOption "--jump-table-min-cases")
      | value :: rest =>
        match word64? value with
        | some n => runOptions { o with minCases := n } rest
        | none => throw (.unknownOption "--jump-table-min-cases")
    | "%s" => runOptions o rest
    | other => throw (.unknownOption other)

namespace Script

/-- The comment that a line consists of, without the blanks before it. -/
def comment? (line : List Char) : Option (List Char) :=
  (Text.after? ";" (Text.trim line)).map Text.trimStart

/-- Adds what a line says. -/
def addLine (s : Script) (line : List Char) : Except CheckError Script :=
  match comment? line with
  | none => pure s
  | some comment =>
    match Text.after? "RUN:" comment with
    | some rest => do return { s with options := ← runOptions s.options (Text.words rest) }
    | none =>
      pure { s with directives := s.directives ++ (Directive.ofComment? comment).toList }

/-- Reads a script. -/
def ofText (source : String) : Except CheckError Script :=
  (Text.lines source.toList).foldlM addLine { source }

/-- The listings and diagnostics of the script's routines. -/
def output (s : Script) : Except CheckError String :=
  match Source.parse s.source with
  | .error e => throw (.parse e)
  | .ok graphs =>
    let batch := compileAll s.options false {} graphs
    return String.join (List.zipWith Compiled.render graphs batch.results)

/-- Checks the script. -/
def run (s : Script) : Except CheckError Unit := do validate (← s.output) s.directives

end Script
end Check
end Linearizer
