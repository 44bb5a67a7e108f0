/-!
# Ranges of characters

A class of characters as closed ranges of code points, ascending and apart.
-/

namespace LuaFront.Text

/-- Closed ranges of code points. -/
abbrev Ranges := List (Nat × Nat)

namespace Ranges

/-- Whether a code point lies in one of the ranges, which are ascending. -/
def contains : Ranges → Nat → Bool
  | [], _ => false
  | (low, high) :: more, n => if n < low then false else n ≤ high || contains more n

/-- Whether the ranges are ascending with gaps between them. -/
def ordered : Ranges → Bool
  | [] => true
  | [(low, high)] => low ≤ high
  | (low, high) :: (low', high') :: more =>
    low ≤ high && high + 1 < low' && ordered ((low', high') :: more)

/-- How many code points lie in the ranges. -/
def size (ranges : Ranges) : Nat := ranges.foldl (fun n (low, high) => n + (high + 1 - low)) 0

end Ranges

end LuaFront.Text
