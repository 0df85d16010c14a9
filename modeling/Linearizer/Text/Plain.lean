/-!
# Plain text

A log holds plain text. Control characters other than blanks are left out of it, and so are control
sequences: an escape character starts one, and the characters after it say how far it goes.

* `Control` is where a reader stands with respect to control sequences;
* `plain` is what is left of a text.
-/

namespace Linearizer
namespace Text

/-- Where a reader stands with respect to control sequences. -/
inductive Control where
  /-- Outside of them. -/
  | outside
  /-- Right after an escape character. -/
  | escape
  /-- After an escape character and an intermediate character, before the final one. -/
  | intermediate
  /-- Among the parameters of a sequence, before the final character. -/
  | parameters
  /-- In a command to the terminal, which a bell ends. -/
  | command
  /-- In a control string, which its terminator ends. -/
  | string
deriving DecidableEq

namespace Control

/-- The byte that ends a control string. -/
def terminator : UInt8 := 0x9C

/-- Where the reader stands after a character that is left out. An escape character starts a
sequence anywhere, and the characters cancel and substitute end one. -/
def next (k : Control) (c : Char) : Control :=
  if c = '\x1b' then .escape
  else if c = '\x18' ∨ c = '\x1a' then .outside
  else
    match k with
    | .outside => .outside
    | .escape =>
      if c = '[' then .parameters
      else if c = ']' then .command
      else if c ∈ ['P', 'X', '^', '_'] then .string
      else if ' ' ≤ c ∧ c ≤ '/' then .intermediate
      else if '0' ≤ c ∧ c ≤ '~' then .outside
      else .escape
    | .intermediate => if '0' ≤ c ∧ c ≤ '~' then .outside else .intermediate
    | .parameters => if '@' ≤ c ∧ c ≤ '~' then .outside else .parameters
    | .command => if c = '\x07' then .outside else .command
    | .string => if terminator ∈ String.utf8EncodeChar c then .outside else .string

/-- Whether blank control characters are kept there. -/
def keepsBlanks : Control → Bool
  | .command | .string => false
  | _ => true

end Control

/-- Whether the character is a control character that moves the place of writing: a tabulator, a
line feed, a form feed or a carriage return. -/
def isControlBlank (c : Char) : Bool := c ∈ ['\t', '\n', '\x0c', '\r']

/-- Whether the character is plain: no control character, or a blank one. Characters beyond ASCII
are plain. -/
def isPlain (c : Char) : Bool := (' ' ≤ c && c ≠ '\x7f') || isControlBlank c

/-- The plain part of characters. `shown` says that the character before them was kept: then plain
characters are kept until one that is not, even inside a sequence. -/
def plainFrom (k : Control) (shown : Bool) : List Char → List Char
  | [] => []
  | c :: rest =>
    if isPlain c && (shown || k = .outside || (k.keepsBlanks && isControlBlank c)) then
      c :: plainFrom (if c ≤ '\x7f' then k else .outside) true rest
    else plainFrom (k.next c) false rest

/-- The text without control sequences and without control characters other than blanks. -/
def plain (text : String) : String := String.ofList (plainFrom .outside false text.toList)

end Text
end Linearizer
