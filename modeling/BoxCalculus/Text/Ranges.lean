/-!
# Sets of characters

A set of characters is given by the ranges of code points it consists of, in ascending order.
-/

namespace BoxCalculus.Text

/-- Does a code point lie in one of the ranges? The ranges stand in ascending order, so the search
ends at the first one that starts above it. -/
def inRanges (code : Nat) : List (Nat × Nat) → Bool
  | [] => false
  | (first, last) :: rest => first ≤ code && (code ≤ last || inRanges code rest)

end BoxCalculus.Text
