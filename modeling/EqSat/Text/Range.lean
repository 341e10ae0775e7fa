/-!
# Code point ranges

A character class beyond ASCII is a list of closed ranges of code points.
-/

namespace EqSat.Text

/-- The code point lies in one of the closed ranges. -/
def inRanges (ranges : List (Nat × Nat)) (c : Char) : Bool :=
  ranges.any fun (lo, hi) => lo ≤ c.toNat && c.toNat ≤ hi

end EqSat.Text
