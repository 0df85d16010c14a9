/-!
# Character ranges

A character property is a table of code point ranges. The tables are ascending, so a search can
stop at the first range above the code point.
-/

namespace Linearizer
namespace Text

/-- Code point ranges, both ends included, in ascending order. -/
abbrev Ranges := List (Nat × Nat)

/-- Whether a range of the ascending table holds the code point `n`. -/
def Ranges.holds : Ranges → Nat → Bool
  | [], _ => false
  | (lo, hi) :: rest, n => if n < lo then false else n ≤ hi || holds rest n

end Text
end Linearizer
