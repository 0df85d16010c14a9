import Linearizer.Check.Directive

/-!
# Matching directives against an output

The directives are followed in order. A position stands before the lines that are not taken yet,
and patterns that should be absent wait for the next directive that takes a line.

* `Progress.step` follows one directive, and `follow` some in order;
* `validate` follows all of them to the end of an output.
-/

namespace Linearizer
namespace Check

/-- Whether a pattern stands on a line. -/
def contains (pattern line : String) : Bool := Text.hasInfix pattern.toList line.toList

/-- Whether a line holds nothing but blanks. -/
def isBlankLine (line : String) : Bool := line.toList.all Text.isBlank

/-- The first line with a pattern that should be absent, where `before` lines come before. -/
def violation? (absent : List String) : (before : Nat) → List String → Option CheckError
  | _, [] => none
  | before, line :: rest =>
    match absent.find? fun pattern => contains pattern line with
    | some pattern => some (.forbidden pattern (before + 1))
    | none => violation? absent (before + 1) rest

/-- Fails unless the lines from `start` up to `stop` exist and hold none of the patterns. -/
def checkAbsent (lines absent : List String) (start stop : Nat) : Except CheckError Unit :=
  if stop < start || lines.length < stop then throw .pastEnd
  else
    match violation? absent start ((lines.take stop).drop start) with
    | some error => throw error
    | none => pure ()

/-- How far the directives have been followed. -/
structure Progress where
  /-- How many lines have been passed. -/
  position : Nat := 0
  /-- The patterns that should be absent until the next line that is taken. -/
  absent : List String := []
deriving DecidableEq

namespace Progress

/-- Takes the first line further down with a pattern. -/
def find (lines : List String) (p : Progress) (pattern : String) : Except CheckError Progress :=
  if lines.length < p.position then throw .pastEnd
  else
    match (lines.drop p.position).findIdx? (contains pattern) with
    | none => throw (.notFound pattern)
    | some skipped => do
      checkAbsent lines p.absent p.position (p.position + skipped)
      return ⟨p.position + skipped + 1, []⟩

/-- Takes the next line, which has to hold a pattern. A missing line counts as an empty one. -/
def takeNext (lines : List String) (p : Progress) (pattern : String) :
    Except CheckError Progress := do
  let line := lines[p.position]?.getD ""
  if !contains pattern line then throw (.nextMismatch pattern line)
  checkAbsent lines p.absent p.position p.position
  return ⟨p.position + 1, []⟩

/-- Takes the next line, if there is one, which has to be blank. -/
def takeEmpty (lines : List String) (p : Progress) : Except CheckError Progress :=
  match lines[p.position]? with
  | none => pure p
  | some line =>
    if isBlankLine line then pure { p with position := p.position + 1 }
    else throw (.notEmpty line)

/-- Follows a directive. -/
def step (lines : List String) (p : Progress) : Directive → Except CheckError Progress
  | .expect pattern | .label pattern => p.find lines pattern
  | .next pattern => p.takeNext lines pattern
  | .absent pattern => pure { p with absent := p.absent ++ [pattern] }
  | .empty => p.takeEmpty lines

end Progress

/-- Follows directives in order. -/
def follow (lines : List String) (directives : List Directive) : Except CheckError Progress :=
  directives.foldlM (Progress.step lines) {}

/-- Follows directives through the lines of an output. -/
def validateLines (lines : List String) (directives : List Directive) :
    Except CheckError Unit := do
  let p ← follow lines directives
  checkAbsent lines p.absent p.position lines.length

/-- Follows directives through an output. -/
def validate (output : String) (directives : List Directive) : Except CheckError Unit :=
  validateLines ((Text.lines output.toList).map String.ofList) directives

end Check
end Linearizer
