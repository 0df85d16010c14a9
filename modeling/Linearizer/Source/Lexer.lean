import Linearizer.Numeral
import Linearizer.Source.Token
import Linearizer.Text.Alphabetic
import Linearizer.Text.Lines
import Linearizer.Text.Numeric

/-!
# Tokens of a line

A line is cut into tokens from left to right: words, variables, numbers, texts in double quotes and
symbols, with blanks between them. A semicolon outside of a text starts a comment that takes the
rest of the line.

* `tokens` are the tokens of a line;
* `Line` is a line that has some, and `scan` the lines of a text.
-/

namespace Linearizer
namespace Source

/-- Whether a character can stand inside a word. -/
def isWordChar (c : Char) : Bool := Text.isAlphabetic c || Text.isNumeric c || c = '_'

/-- Whether a character can start a word. -/
def isWordStart (c : Char) : Bool := Text.isAlphabetic c || c = '_'

/-- A number from its sign and the digits and more after it: an integer, or a double when there is
a fraction or an exponent. -/
def lexNumber (negative : Bool) (cs : List Char) : Except Complaint (Token × List Char) :=
  let whole := Numeral.digitsOf cs
  let afterWhole := Numeral.afterDigits cs
  let (fraction, afterFraction) :=
    match afterWhole with
    | '.' :: d :: rest =>
      if d.isDigit then (Numeral.digitsOf (d :: rest), Numeral.afterDigits (d :: rest))
      else ([], afterWhole)
    | _ => ([], afterWhole)
  match Numeral.exponentOf? afterFraction with
  | some (exponent, rest) =>
    .ok (.double (Numeral.toDouble ⟨negative, whole, fraction, exponent⟩), rest)
  | none =>
    let numeral : Numeral := ⟨negative, whole, fraction, 0⟩
    if !fraction.isEmpty then .ok (.double numeral.toDouble, afterFraction)
    else
      match Numeral.int64? numeral.toInt with
      | some n => .ok (.int n, afterFraction)
      | none =>
        .error (.integerRange (String.ofList (if negative then '-' :: whole else whole)))

/-- The characters of a text up to the quote that ends it, and what follows. -/
def lexText : List Char → Except Complaint (List Char × List Char)
  | [] => .error .unterminatedText
  | '"' :: rest => .ok ([], rest)
  | '\\' :: 'n' :: rest => (lexText rest).map fun (s, after) => ('\n' :: s, after)
  | '\\' :: 't' :: rest => (lexText rest).map fun (s, after) => ('\t' :: s, after)
  | '\\' :: '"' :: rest => (lexText rest).map fun (s, after) => ('"' :: s, after)
  | '\\' :: '\\' :: rest => (lexText rest).map fun (s, after) => ('\\' :: s, after)
  | '\\' :: rest => .error (.unknownEscape rest.head?)
  | c :: rest => (lexText rest).map fun (s, after) => (c :: s, after)

/-- A symbol at the front of `c :: cs`. -/
def lexSymbol (c : Char) (cs : List Char) : Except Complaint (Token × List Char) :=
  match Symbol.all.find? fun s => s.text.toList.isPrefixOf (c :: cs) with
  | some s => .ok (.symbol s, (c :: cs).drop s.text.length)
  | none => .error (.unexpectedCharacter c)

/-- The token at the front of `c :: cs`, and what follows. -/
def lexToken (c : Char) (cs : List Char) : Except Complaint (Token × List Char) :=
  if isWordStart c then
    .ok (.word (String.ofList (c :: cs.takeWhile isWordChar)), cs.dropWhile isWordChar)
  else if c = '%' then
    let name := cs.takeWhile isWordChar
    if name.isEmpty then .error .unnamedVariable
    else .ok (.variable (String.ofList name), cs.dropWhile isWordChar)
  else if c.isDigit then lexNumber false (c :: cs)
  else if c = '-' && cs.head?.any Char.isDigit then lexNumber true cs
  else if c = '"' then (lexText cs).map fun (s, rest) => (.text (String.ofList s), rest)
  else lexSymbol c cs

/-- The tokens of a line in at most `steps` steps, each of which takes at least one character. -/
def tokensWithin : (steps : Nat) → List Char → Except Complaint (List Token)
  | 0, _ => .ok []
  | _ + 1, [] => .ok []
  | steps + 1, c :: cs =>
    if Text.isBlank c then tokensWithin steps cs
    else if c = ';' then .ok []
    else do
      let (token, rest) ← lexToken c cs
      let others ← tokensWithin steps rest
      return token :: others

/-- The tokens of a line. -/
def tokens (cs : List Char) : Except Complaint (List Token) := tokensWithin cs.length cs

/-- A line with tokens. -/
structure Line where
  /-- Its number, counted from one. -/
  number : Nat
  /-- The column of its first token, counted from one. -/
  column : Nat
  /-- Its tokens. -/
  tokens : List Token
deriving DecidableEq

/-- The lines with tokens, where the first line has a number. Fails at the first line that cannot
be cut into tokens. -/
def scanFrom : Nat → List (List Char) → Except ParseError (List Line)
  | _, [] => .ok []
  | number, cs :: rest =>
    match tokens cs with
    | .error complaint => .error ⟨number, complaint⟩
    | .ok ts => do
      let others ← scanFrom (number + 1) rest
      let column := (cs.takeWhile Text.isBlank).length + 1
      return if ts.isEmpty then others else ⟨number, column, ts⟩ :: others

/-- The lines of a text that have tokens. -/
def scan (text : String) : Except ParseError (List Line) := scanFrom 1 (Text.lines text.toList)

end Source
end Linearizer
