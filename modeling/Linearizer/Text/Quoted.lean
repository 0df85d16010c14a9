import Linearizer.Text.Hidden

/-!
# Quoted text

A text or a character between quotes, on one line and in visible characters: the quote and the
backslash are escaped, the common controls have a letter, and every other hidden character is
written by its code point in hexadecimal.
-/

namespace Linearizer
namespace Text

/-- How a character is written between the quotes `quote`. -/
def escape (quote c : Char) : List Char :=
  if c = '\x00' then ['\\', '0']
  else if c = '\t' then ['\\', 't']
  else if c = '\r' then ['\\', 'r']
  else if c = '\n' then ['\\', 'n']
  else if c = quote || c = '\\' then ['\\', c]
  else if isHidden c then ['\\', 'u', '\x7b'] ++ Nat.toDigits 16 c.toNat ++ ['\x7d']
  else [c]

/-- The text in double quotes. -/
def quoted (s : String) : String :=
  String.ofList ('"' :: s.toList.flatMap (escape '"') ++ ['"'])

/-- The character in single quotes. -/
def quotedChar (c : Char) : String :=
  String.ofList ('\x27' :: escape '\x27' c ++ ['\x27'])

end Text
end Linearizer
