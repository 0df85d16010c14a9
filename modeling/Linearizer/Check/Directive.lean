import Linearizer.Source.Token
import Linearizer.Text.Lines

/-!
# Check directives

A routine text may say in its comments what its listings have to look like. Each directive is about
the lines of the output after those that the directives before it have taken.

* `Directive.ofComment?` reads a directive from a comment;
* `CheckError` is what can go wrong with a check.
-/

namespace Linearizer
namespace Check

/-- What is expected of the output. -/
inductive Directive where
  /-- The pattern stands on some line further down. -/
  | expect (pattern : String)
  /-- As `expect`, for the line that a routine starts with. -/
  | label (pattern : String)
  /-- The pattern stands on the next line. -/
  | next (pattern : String)
  /-- The pattern stands on none of the lines that the next directive passes over. -/
  | absent (pattern : String)
  /-- The next line, if there is one, is blank. -/
  | empty
deriving DecidableEq

/-- Reads a directive from a comment, without the semicolon and the blanks before it. -/
def Directive.ofComment? (cs : List Char) : Option Directive :=
  let pattern (rest : List Char) : String := String.ofList (Text.trim rest)
  if let some rest := Text.after? "CHECK-LABEL:" cs then some (.label (pattern rest))
  else if let some rest := Text.after? "CHECK-NEXT:" cs then some (.next (pattern rest))
  else if let some rest := Text.after? "CHECK-NOT:" cs then some (.absent (pattern rest))
  else if (Text.after? "CHECK-EMPTY" cs).isSome then some .empty
  else (Text.after? "CHECK:" cs).map fun rest => .expect (pattern rest)

/-- What can go wrong with a check. -/
inductive CheckError where
  /-- The routine text cannot be read. -/
  | parse (error : Source.ParseError)
  /-- An option of a run is not known, or has no number. -/
  | unknownOption (option : String)
  | notFound (pattern : String)
  | nextMismatch (pattern found : String)
  /-- A pattern that should be absent stands on a line, counted from one. -/
  | forbidden (pattern : String) (line : Nat)
  | notEmpty (found : String)
  /-- A line was taken that the output does not have, and lines after it are asked for. -/
  | pastEnd
deriving DecidableEq

/-- The text of an error. -/
def CheckError.message : CheckError → String
  | .parse error => error.message
  | .unknownOption option => "unknown RUN option '" ++ option ++ "'"
  | .notFound pattern => "CHECK: pattern '" ++ pattern ++ "' not found"
  | .nextMismatch pattern found =>
    "CHECK-NEXT: expected '" ++ pattern ++ "' but got '" ++ found ++ "'"
  | .forbidden pattern line =>
    "CHECK-NOT: '" ++ pattern ++ "' found at output line " ++ toString line
  | .notEmpty found => "CHECK-EMPTY: expected an empty line but got '" ++ found ++ "'"
  | .pastEnd => "no output is left after an empty CHECK-NEXT"

end Check
end Linearizer
