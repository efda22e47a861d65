/-!
# Sets of characters

A property of characters is given by the closed ranges of code points that have
it, ascending and apart.
-/

namespace WeakForm.Text

/-- Whether a character lies in one of the ranges. -/
def inRanges (ranges : List (Nat × Nat)) (c : Char) : Bool :=
  ranges.any fun r => r.1 ≤ c.toNat && c.toNat ≤ r.2

end WeakForm.Text
