import Formula.Divisors
import Formula.Laurent.Basic

/-!
# Candidates for rational roots

By the rational root theorem a nonzero rational root of a polynomial with integer coefficients is,
up to its sign, a divisor of the lowest coefficient over a divisor of the leading one.
`candidateRoots` lists these quotients for a polynomial over fractions, whose denominators are
cleared first.
-/

namespace Formula.Laurent

/-- The least common multiple of the reduced denominators. -/
def commonDenominator (p : Laurent Fraction) : Nat :=
  (p.terms.filterMap fun (_, c) => c.simplified.denominator?).foldl Nat.lcm 1

/-- The coefficient of a power as an integer, once the denominators are cleared. -/
def clearedCoefficient? (p : Laurent Fraction) (power : Int) : Option Int :=
  (p.coefficient power * Fraction.ofParts false p.commonDenominator 1).simplified.signedNumerator?

/-- Adds a fraction at the end of a list, unless an equal one is there. -/
def pushNew (found : List Fraction) (f : Fraction) : List Fraction :=
  if found.any (· == f) then found else found ++ [f]

/-- Every fraction that can be a root. -/
def candidateRoots (p : Laurent Fraction) : List Fraction :=
  if p.isZero then []
  else
    let start := if 0 < p.smallestPower then [Fraction.zero] else []
    match p.clearedCoefficient? p.smallestPower, p.clearedCoefficient? p.largestPower with
    | some lowest, some leading =>
      (divisorList lowest.natAbs).foldl (fun found a =>
        (divisorList leading.natAbs).foldl (fun found b =>
          let f := (Fraction.ofParts false a b).simplified
          pushNew (pushNew found f) (-f)) found) start
    | _, _ => start

end Formula.Laurent
