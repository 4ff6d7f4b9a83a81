/-!
# Sets of characters

A set of characters is listed as the ascending ranges of its code points.
-/

namespace Formula

/-- Ranges of code points, each given by its first and its last one. -/
abbrev CharRanges := List (Nat × Nat)

/-- Whether one of the ranges holds the character. -/
def CharRanges.contains (ranges : CharRanges) (c : Char) : Bool :=
  ranges.any fun (first, last) => first ≤ c.toNat && c.toNat ≤ last

end Formula
