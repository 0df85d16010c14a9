import Linearizer.Decimal.Double
import Linearizer.Text.Quoted

/-!
# Tokens and complaints

The routine text is made of lines, and a line of tokens. A complaint says what is wrong with a
line.
-/

namespace Linearizer
namespace Source

/-- A mark that is a token of its own. -/
inductive Symbol where
  | append | arrow | comma | openParen | closeParen | colon | equals | openBrace | closeBrace | bar
  | less | greater
deriving DecidableEq

namespace Symbol

/-- The symbols, the longer ones first. -/
def all : List Symbol :=
  [.append, .arrow, .comma, .openParen, .closeParen, .colon, .equals, .openBrace, .closeBrace, .bar,
   .less, .greater]

/-- The characters of a symbol. -/
def text : Symbol → String
  | .append => ".="
  | .arrow => "->"
  | .comma => ","
  | .openParen => "("
  | .closeParen => ")"
  | .colon => ":"
  | .equals => "="
  | .openBrace => "\x7b"
  | .closeBrace => "\x7d"
  | .bar => "|"
  | .less => "<"
  | .greater => ">"

end Symbol

/-- A token of the routine text. -/
inductive Token where
  | word (name : String)
  /-- A variable, without the percent sign before its name. -/
  | variable (name : String)
  | int (n : Int64)
  | double (x : Float)
  | text (s : String)
  | symbol (s : Symbol)
deriving DecidableEq

/-- A text in single quotes, as complaints show it. -/
def quote (s : String) : String := "'" ++ s ++ "'"

/-- A token as a complaint shows it. -/
def Token.describe : Token → String
  | .word name => quote name
  | .variable name => quote ("%" ++ name)
  | .int n => quote (toString n.toInt)
  | .double x => quote (Double.plain.text x)
  | .text s => Text.quoted s
  | .symbol s => quote s.text

/-- What a line is expected to go on with. -/
inductive Wanted where
  | symbol (s : Symbol)
  | keyword (word : String)
  | routineName
  | className
  | blockLabel
  | encoding
  | hint
  | statement
  | variable
  | expression
deriving DecidableEq

/-- What is expected, as a complaint shows it. -/
def Wanted.describe : Wanted → String
  | .symbol s => quote s.text
  | .keyword word => quote word
  | .routineName => "a routine name"
  | .className => "a class name"
  | .blockLabel => "a block label"
  | .encoding => "a representation"
  | .hint => "a type hint"
  | .statement => "a statement"
  | .variable => "a variable"
  | .expression => "an expression"

/-- What is wrong with a line. -/
inductive Complaint where
  /-- A percent sign without a name. -/
  | unnamedVariable
  | integerRange (digits : String)
  | unterminatedText
  | unknownEscape (found : Option Char)
  | unexpectedCharacter (c : Char)
  /-- A line outside of routines that starts none. -/
  | noRoutine
  | unclosedRoutine
  | noBlocks (routine : String)
  | duplicateBlock (name : String)
  | declaredTwice (name : String)
  | outsideBlock
  | afterTerminator
  | missing (wanted : Wanted) (found : Option Token)
  | trailing (found : Token)
  | unknownHint (text : String)
  | unknownEncoding (name : String)
  | undeclared (name : String)
  | unknownBlock (name : String)
  | unknownStatement (word : String)
  | unknownExpression (word : String)
  | caseNotLiteral
deriving DecidableEq

/-- The text of a complaint. -/
def Complaint.message : Complaint → String
  | .unnamedVariable => "expected a variable name after '%'"
  | .integerRange digits => "integer " ++ quote digits ++ " out of range"
  | .unterminatedText => "unterminated string literal"
  | .unknownEscape none => "unknown escape None"
  | .unknownEscape (some c) => "unknown escape Some(" ++ Text.quotedChar c ++ ")"
  | .unexpectedCharacter c => "unexpected character " ++ quote c.toString
  | .noRoutine => "expected 'routine'"
  | .unclosedRoutine => "routine is not closed by '\x7d'"
  | .noBlocks routine => "routine " ++ quote routine ++ " has no blocks"
  | .duplicateBlock name => "duplicate block " ++ quote name
  | .declaredTwice name => "variable " ++ quote ("%" ++ name) ++ " declared twice"
  | .outsideBlock => "statement outside of a block"
  | .afterTerminator => "statement after the block's terminator"
  | .missing wanted found =>
    "expected " ++ wanted.describe ++ " but found " ++
      ((found.map Token.describe).getD "end of line")
  | .trailing found => "unexpected trailing " ++ found.describe
  | .unknownHint text => "unknown type hint " ++ quote text
  | .unknownEncoding name => "unknown representation " ++ quote name
  | .undeclared name => "undeclared variable " ++ quote ("%" ++ name)
  | .unknownBlock name => "unknown block " ++ quote name
  | .unknownStatement word => "unknown statement " ++ quote word
  | .unknownExpression word => "unknown expression " ++ quote word
  | .caseNotLiteral => "switch cases must be literals"

/-- A complaint about a line. -/
structure ParseError where
  /-- The number of the line, counted from one. -/
  line : Nat
  /-- What is wrong with it. -/
  complaint : Complaint
deriving DecidableEq

/-- The text of an error. -/
def ParseError.message (e : ParseError) : String :=
  "line " ++ toString e.line ++ ": " ++ e.complaint.message

end Source
end Linearizer
