import Linearizer.Source.Reader

/-!
# Routines of the routine text

A routine is a header line, lines of its body and a line with a closing brace alone. The body
declares variables and holds blocks: a label line starts a block, and the lines after it are its
statements and at most one edge, the last. The labels of the whole body are collected first, so
that an edge can lead to a block further down.

* `parse` reads all routines of a text.
-/

namespace Linearizer
namespace Source

namespace Line

/-- Whether the line closes a routine. -/
def isClose (l : Line) : Bool := l.tokens = [.symbol .closeBrace]

/-- Whether the line starts a routine. -/
def isHeader (l : Line) : Bool := l.tokens.head? = some (.word "routine")

/-- The label on a line, and whether it is said to be dead. -/
def label? (l : Line) : Option (String × Bool) :=
  match l.tokens with
  | [.word name, .symbol .colon] => some (name, false)
  | [.word name, .symbol .colon, .word "dead"] => some (name, true)
  | _ => none

end Line

/-- Reads the tokens of a line that belongs to a routine so far, and gives the routine after it. -/
def readLine (l : Line) (g : Graph) (read : Read α) : Except ParseError (α × Graph) :=
  match read.run ⟨l.tokens, g⟩ with
  | .ok a r => .ok (a, r.graph)
  | .error complaint _ => .error ⟨l.number, complaint⟩

namespace Read

/-- Declares a variable that the routine does not have yet. -/
def declare (name : String) (add : Graph → Graph) : Read Unit := do
  if ((← get).graph.findVar? name).isSome then throw (.declaredTwice name)
  modify fun r => { r with graph := add r.graph }

/-- Reads parameters with commas between them and a parenthesis after the last one. -/
def params : (steps : Nat) → Read Unit
  | 0 => missing .variable
  | steps + 1 => do
    let (name, e, h) ← declaration
    declare name (·.declareParam name e h)
    if ← eat (.symbol .closeParen) then return
    expectSymbol .comma
    params steps

/-- Reads a header line. -/
def header : Read Unit := do
  expectKeyword "routine"
  let name ← word .routineName
  modify fun r => { r with graph := { r.graph with name } }
  expectSymbol .openParen
  if !(← eat (.symbol .closeParen)) then params (← get).tokens.length
  expectSymbol .openBrace
  finish

/-- Reads a declaration of a variable that lives in `home`. -/
def variableLine (home : VarHome) : Read Unit := do
  let (name, e, h) ← declaration
  finish
  declare name (·.declare ⟨name, home, e, h⟩)

/-- Reads a line inside a block. -/
def contentLine : Read Content := do
  let content ← line
  finish
  return content

end Read

/-- The routine with the blocks whose labels stand on the lines. -/
def collectBlocks : List Line → Graph → Except ParseError Graph
  | [], g => .ok g
  | l :: rest, g =>
    match l.label? with
    | none => collectBlocks rest g
    | some (name, dead) =>
      if (g.findBlock? name).isSome then .error ⟨l.number, .duplicateBlock name⟩
      else collectBlocks rest { g with blocks := g.blocks ++ [{ name, dead }] }

/-- Adds a line's content to a block. -/
def addContent (l : Line) (content : Read.Content) (b : Block) : Block :=
  match content with
  | .action a => { b with statements := b.statements ++ [⟨a, some ⟨l.number, l.column⟩⟩] }
  | .edge e => { b with edge := some e }

/-- Reads a line that is no label: a declaration, or the content of the block `current`. -/
def bodyLine (l : Line) (current : Option BlockId) (g : Graph) : Except ParseError Graph :=
  match l.tokens with
  | .word "var" :: rest =>
    Prod.snd <$> readLine { l with tokens := rest } g (Read.variableLine .frame)
  | .word "global" :: rest =>
    Prod.snd <$> readLine { l with tokens := rest } g (Read.variableLine .global)
  | _ =>
    match current with
    | none => .error ⟨l.number, .outsideBlock⟩
    | some b =>
      if ((g.block? b).bind (·.edge)).isSome then .error ⟨l.number, .afterTerminator⟩
      else do
        let (content, g) ← readLine l g Read.contentLine
        return { g with blocks := g.blocks.modify b (addContent l content) }

/-- Reads the lines of a body, where `current` is the block of the label before them. -/
def body : List Line → Option BlockId → Graph → Except ParseError Graph
  | [], _, g => .ok g
  | l :: rest, current, g =>
    match l.label? with
    | some (name, _) => body rest (g.findBlock? name) g
    | none => do body rest current (← bodyLine l current g)

/-- Reads a routine from its header line and the lines of its body. -/
def routine (headerLine : Line) (lines : List Line) : Except ParseError Graph := do
  let (_, g) ← readLine headerLine { name := "" } Read.header
  let g ← collectBlocks lines g
  if g.blocks.isEmpty then throw ⟨headerLine.number, .noBlocks g.name⟩
  body lines none g

/-- Reads the routines of some lines, at most `steps` of them. -/
def routinesWithin : (steps : Nat) → List Line → Except ParseError (List Graph)
  | 0, _ => .ok []
  | _ + 1, [] => .ok []
  | steps + 1, headerLine :: rest => do
    if !headerLine.isHeader then throw ⟨headerLine.number, .noRoutine⟩
    match rest.dropWhile (!·.isClose) with
    | [] => throw ⟨headerLine.number, .unclosedRoutine⟩
    | _ :: after =>
      let g ← routine headerLine (rest.takeWhile (!·.isClose))
      return g :: (← routinesWithin steps after)

/-- Reads all routines of a text. -/
def parse (text : String) : Except ParseError (List Graph) := do
  let lines ← scan text
  routinesWithin lines.length lines

end Source
end Linearizer
