import Linearizer.Graph.Basic
import Linearizer.Source.Lexer

/-!
# Expressions, statements and edges of the routine text

The tokens of a line are read from left to right. Expressions are prefix forms: constants,
variables, `new Class`, `not e`, `add e, e` and the like, `array(e, ...)`, and `(e : hint)`, which
gives an expression another hint. Reading a line may add classes to the routine.

* `Read` is a computation on the tokens that are left and the routine so far;
* `Read.expr` reads an expression;
* `Read.line` reads a statement or an edge.
-/

namespace Linearizer
namespace Source

/-- The tokens that are left of a line, and the routine so far. -/
structure Reader where
  /-- The tokens that are left. -/
  tokens : List Token
  /-- The routine so far. -/
  graph : Graph

/-- A computation that reads tokens. -/
abbrev Read := EStateM Complaint Reader

namespace Read

/-! ## Single tokens -/

/-- The next token, which stays. -/
def peek : Read (Option Token) := return (← get).tokens.head?

/-- Drops the next token. -/
def skip : Read Unit := modify fun r => { r with tokens := r.tokens.tail }

/-- Complains about the next token. -/
def missing (wanted : Wanted) : Read α := do throw (.missing wanted (← peek))

/-- Fails unless the line has ended. -/
def finish : Read Unit := do
  if let some found ← peek then throw (.trailing found)

/-- Drops the next token if it is the given one, and tells whether it was. -/
def eat (token : Token) : Read Bool := do
  if (← peek) = some token then
    skip
    return true
  else return false

/-- Drops the next token, which has to be a symbol. -/
def expectSymbol (s : Symbol) : Read Unit := do
  if !(← eat (.symbol s)) then missing (.symbol s)

/-- Drops the next token, which has to be a word. -/
def expectKeyword (word : String) : Read Unit := do
  if !(← eat (.word word)) then missing (.keyword word)

/-- Reads a word that stands for what is wanted. -/
def word (wanted : Wanted) : Read String := do
  match ← peek with
  | some (.word name) =>
    skip
    return name
  | _ => missing wanted

/-- Reads a variable, if one is next. -/
def optionalName : Read (Option String) := do
  match ← peek with
  | some (.variable name) =>
    skip
    return some name
  | _ => return none

/-- Reads a variable. -/
def variableName : Read String := do
  match ← optionalName with
  | some name => return name
  | none => missing .variable

/-! ## Names -/

/-- The declared variable of a name. -/
def varId (name : String) : Read VarId := do
  match (← get).graph.findVar? name with
  | some v => return v
  | none => throw (.undeclared name)

/-- Reads a declared variable. -/
def var : Read VarId := do varId (← variableName)

/-- Reads a declared variable, if a variable is next. -/
def var? : Read (Option VarId) := do
  match ← optionalName with
  | some name => some <$> varId name
  | none => return none

/-- Reads the label of a block. -/
def block : Read BlockId := do
  let name ← word .blockLabel
  match (← get).graph.findBlock? name with
  | some b => return b
  | none => throw (.unknownBlock name)

/-- Reads the name of a class, which may be new. -/
def cls : Read ClassId := do
  let name ← word .className
  let r ← get
  let (c, graph) := r.graph.internClass name
  set { r with graph }
  return c

/-! ## Hints and encodings -/

/-- Reads the names that follow each other with bars between them, at most `steps` of them. -/
def moreNames : (steps : Nat) → Read (List String)
  | 0 => return []
  | steps + 1 => do
    if ← eat (.symbol .bar) then
      let name ← word .hint
      return name :: (← moreNames steps)
    else return []

/-- Reads a hint. -/
def hint : Read Hint := do
  let first ← word .hint
  let rest ← moreNames (← get).tokens.length
  match Hint.ofNames? (first :: rest) with
  | some h => return h
  | none => throw (.unknownHint ("|".intercalate (first :: rest)))

/-- Reads an encoding. -/
def encoding : Read Encoding := do
  let name ← word .encoding
  match Encoding.ofName? name with
  | some (.object _) =>
    if ← eat (.symbol .less) then
      let c ← cls
      expectSymbol .greater
      return .object (some c)
    else return .object none
  | some e => return e
  | none => throw (.unknownEncoding name)

/-- Reads a variable with its encoding and, if given, its hint. -/
def declaration : Read (String × Encoding × Hint) := do
  let name ← variableName
  expectSymbol .colon
  let e ← encoding
  let h ← if ← eat (.word "hint") then hint else pure e.hint
  return (name, e, h)

/-! ## Expressions -/

/-- What a single word stands for, if it is an expression by itself. -/
def constant? : String → Option Literal
  | "null" => some .null
  | "true" => some (.bool true)
  | "false" => some (.bool false)
  | _ => none

mutual

/-- Reads an expression in at most `steps` steps, each of which takes at least one token. -/
def exprWithin : (steps : Nat) → Read Expr
  | 0 => missing .expression
  | steps + 1 => do
    let token ← peek
    skip
    match token with
    | some (.int n) => return .ofLiteral (.int n)
    | some (.double x) => return .ofLiteral (.double x)
    | some (.text s) => return .ofLiteral (.string s)
    | some (.variable name) =>
      let v ← varId name
      return .var v ((← get).graph.varHint v)
    | some (.symbol .openParen) =>
      let inner ← exprWithin steps
      let result ← if ← eat (.symbol .colon) then inner.withHint <$> hint else pure inner
      expectSymbol .closeParen
      return result
    | some (.word name) =>
      match name with
      | "new" => return .ofClass (← cls)
      | "not" => return .ofNot (← exprWithin steps)
      | "array" =>
        expectSymbol .openParen
        if ← eat (.symbol .closeParen) then return .ofItems []
        return .ofItems (← itemsWithin steps)
      | _ =>
        match constant? name, BinaryOp.ofName? name with
        | some l, _ => return .ofLiteral l
        | none, some o =>
          let left ← exprWithin steps
          expectSymbol .comma
          let right ← exprWithin steps
          return .ofBinary o left right
        | none, none => throw (.unknownExpression name)
    | found => throw (.missing .expression found)

/-- Reads expressions with commas between them and a parenthesis after the last one. -/
def itemsWithin : (steps : Nat) → Read (List Expr)
  | 0 => missing .expression
  | steps + 1 => do
    let first ← exprWithin steps
    if ← eat (.symbol .closeParen) then return [first]
    expectSymbol .comma
    return first :: (← itemsWithin steps)

end

/-- Reads an expression. -/
def expr : Read Expr := do exprWithin (← get).tokens.length

/-! ## Lines -/

/-- What a line inside a block says. -/
inductive Content where
  | action (a : Action)
  | edge (e : Edge)

/-- Reads the handlers of a protected region, at most `steps` of them. -/
def handlers : (steps : Nat) → Read (List Handler)
  | 0 => return []
  | steps + 1 => do
    if ← eat (.word "catch") then
      let c ← cls
      let v ← var?
      expectSymbol .arrow
      let target ← block
      return ⟨c, v, target⟩ :: (← handlers steps)
    else return []

/-- Reads the rest of a protected region. -/
def protect : Read Edge := do
  let body ← block
  let hs ← handlers (← get).tokens.length
  let cleanup ← if ← eat (.word "finally") then some <$> block else pure none
  expectKeyword "end"
  return .protect body hs cleanup (← block)

/-- Reads the cases of a switch, at most `steps` of them. -/
def cases : (steps : Nat) → Read (List Case)
  | 0 => return []
  | steps + 1 => do
    if ← eat (.word "case") then
      match ← expr with
      | .literal l _ =>
        expectSymbol .arrow
        let target ← block
        return ⟨l, target⟩ :: (← cases steps)
      | _ => throw .caseNotLiteral
    else return []

/-- Reads the rest of a switch. -/
def switch : Read Edge := do
  let value ← expr
  let cs ← cases (← get).tokens.length
  expectKeyword "default"
  expectSymbol .arrow
  return .switch value cs (← block)

/-- Reads the rest of a line that starts with a word. -/
def afterWord : String → Read Content
  | "echo" => return .action (.echo (← expr))
  | "eval" => return .action (.eval (← expr))
  | "throw" => return .action (.throw (← expr))
  | "return" => do
    if (← peek).isNone then return .action (.ret none)
    return .action (.ret (some (← expr)))
  | "goto" => return .edge (.goto (← block))
  | "if" => do
    let condition ← expr
    expectKeyword "then"
    let ifTrue ← block
    expectKeyword "else"
    return .edge (.conditional condition ifTrue (← block))
  | "try" => return .edge (← protect)
  | "foreach" => do
    let subject ← expr
    expectSymbol .arrow
    return .edge (.foreach subject (← block))
  | "movenext" => do
    let source ← block
    let value ← var
    let key ← var?
    expectKeyword "body"
    let body ← block
    expectKeyword "after"
    return .edge (.moveNext source value key body (← block))
  | "switch" => return .edge (← switch)
  | name => throw (.unknownStatement name)

/-- Reads a statement or an edge. -/
def line : Read Content := do
  match ← var? with
  | some v =>
    if ← eat (.symbol .append) then return .action (.append v (← expr))
    expectSymbol .equals
    return .action (.assign v (← expr))
  | none => afterWord (← word .statement)

end Read
end Source
end Linearizer
