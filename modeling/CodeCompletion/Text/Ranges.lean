/-! Sets of code points written as ascending lists of closed ranges, the form in which the Unicode
character database gives its properties. -/
namespace CodeCompletion

/-- Closed ranges of code points, ascending and apart from each other. -/
abbrev Ranges := List (Nat × Nat)

namespace Ranges

/-- Whether a code point lies in one of the ranges. The search stops at the first range
that starts above it. -/
def contains : Ranges → Nat → Bool
  | [], _ => false
  | (low, high) :: rest, n =>
    if n < low then false else n ≤ high || contains rest n

end Ranges

end CodeCompletion
