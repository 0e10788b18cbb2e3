/-
# Ranges of code points

Tables of code points are lists of closed ranges in ascending order, so that a search can stop at
the first range that starts too high.
-/

namespace LocalVcs.Text

/-- Whether a code point lies in one of the ranges, which stand in ascending order. -/
def inRanges (code : Nat) : List (Nat × Nat) → Bool
  | [] => false
  | (low, high) :: rest => low ≤ code && (code ≤ high || inRanges code rest)

end LocalVcs.Text
