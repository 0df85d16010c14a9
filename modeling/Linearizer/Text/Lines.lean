import Linearizer.Text.Blank

/-!
# Lines, words and patterns

A text is a sequence of lines. A line ends at a line feed, which takes a carriage return right
before it along; what follows the last line feed is a line of its own unless it is empty.

* `lines` splits a text into its lines;
* `trim` drops the blanks around a text, and `words` are its maximal runs without blanks;
* `splitAt` cuts a text at a mark, and `after?` what stands at its start;
* `hasInfix` looks for a pattern anywhere in a text.
-/

namespace Linearizer
namespace Text

/-- The lines of a text, without their ends. -/
def lines : List Char → List (List Char)
  | [] => []
  | '\r' :: '\n' :: rest => [] :: lines rest
  | '\n' :: rest => [] :: lines rest
  | c :: rest =>
    match lines rest with
    | [] => [[c]]
    | line :: others => (c :: line) :: others

/-- The text without the blanks at its start. -/
def trimStart (cs : List Char) : List Char := cs.dropWhile isBlank

/-- The text without the blanks around it. -/
def trim (cs : List Char) : List Char := (trimStart (trimStart cs).reverse).reverse

/-- The maximal runs of characters other than blanks. -/
def words : List Char → List (List Char)
  | [] => []
  | c :: rest =>
    if isBlank c then words rest
    else
      match rest with
      | [] => [[c]]
      | d :: _ =>
        if isBlank d then [c] :: words rest
        else
          match words rest with
          | [] => [[c]]
          | word :: others => (c :: word) :: others

/-- The pieces of a text between the marks `mark`; a text without a mark is one piece. -/
def splitAt (mark : Char) : List Char → List (List Char)
  | [] => [[]]
  | c :: rest =>
    if c = mark then [] :: splitAt mark rest
    else
      match splitAt mark rest with
      | [] => [[c]]
      | piece :: others => (c :: piece) :: others

/-- What follows `start` in a text that starts with it. -/
def after? (start : String) (cs : List Char) : Option (List Char) :=
  if start.toList.isPrefixOf cs then some (cs.drop start.length) else none

/-- Whether `pattern` stands somewhere in the text. -/
def hasInfix (pattern : List Char) : List Char → Bool
  | [] => pattern.isEmpty
  | c :: rest => pattern.isPrefixOf (c :: rest) || hasInfix pattern rest

end Text
end Linearizer
