import Formula.Binary.Floating
import Formula.Decimal.Digits

/-!
# The shortest decimal of a machine number

A machine number is written with the fewest decimal digits that read back as the same number.
`shortest` looks at the grids of one, two, … significant digits. On each it tries the two
neighbours of the number, and it stops at the first grid where one of them rounds to the number.
-/

namespace Formula

/-- The number `significand * 10 ^ exponent`. -/
structure Decimal where
  significand : Nat
  exponent : Int
deriving DecidableEq

/-- Which of two equally near decimals is taken. -/
inductive Tie where
  | greater
  | even
deriving DecidableEq

namespace Decimal

/-- The exponent `e` with `10 ^ e ≤ num / den < 10 ^ (e + 1)`, for positive `num` and `den`. -/
def ratioLog10 (num den : Nat) : Int :=
  if den ≤ num then ((Digits.text (num / den)).length : Int) - 1
  else -((Digits.text ((den + num - 1) / num - 1)).length : Int)

/-- The decimal without the zeros at its end. The first argument bounds their number. -/
def dropZeros : Nat → Decimal → Decimal
  | 0, d => d
  | bound + 1, d =>
    if d.significand ≠ 0 ∧ d.significand % 10 = 0 then
      dropZeros bound ⟨d.significand / 10, d.exponent + 1⟩
    else d

/-- The reals that round to one machine number: those between `low / den` and `high / den`, the
ends among them if `closed`. The number itself is `mid / den`. -/
structure Cell where
  low : Nat
  mid : Nat
  high : Nat
  den : Nat
  closed : Bool

namespace Cell

/-- The cell of `significand * 2 ^ exponent`. Below a power of two the numbers lie twice as close,
except at the bottom of the range. -/
def of (f : BinaryFormat) (significand : Nat) (exponent : Int) : Cell :=
  let scale := Nat.pow 2 (exponent - 2).toNat
  let below := if significand = Nat.pow 2 f.fractionBits ∧ f.minExponent < exponent then 1 else 2
  { low := (4 * significand - below) * scale
    mid := 4 * significand * scale
    high := (4 * significand + 2) * scale
    den := Nat.pow 2 (2 - exponent).toNat
    closed := significand % 2 == 0 }

/-- Whether `num / den` lies in the cell. -/
def contains (cell : Cell) (num den : Nat) : Bool :=
  let below := compare (cell.low * den) (num * cell.den)
  let above := compare (num * cell.den) (cell.high * den)
  (below == .lt || (cell.closed && below == .eq)) && (above == .lt || (cell.closed && above == .eq))

/-- The point of the grid `10 ^ e` that lies in the cell, and of two such points the one nearer to
the number. -/
def onGrid (cell : Cell) (tie : Tie) (e : Int) : Option Decimal :=
  let up := Nat.pow 10 e.toNat
  let down := Nat.pow 10 (-e).toNat
  let d := cell.mid * down / (cell.den * up)
  let lowerFits := cell.contains (d * up) down
  let upperFits := cell.contains ((d + 1) * up) down
  let upperNearer :=
    match compare ((2 * d + 1) * up * cell.den) (2 * cell.mid * down) with
    | .lt => true
    | .eq => tie == .greater || d % 2 == 1
    | .gt => false
  if upperFits && (!lowerFits || upperNearer) then some ⟨d + 1, e⟩
  else if lowerFits then some ⟨d, e⟩
  else none

end Cell

/-- More digits than any machine number needs. -/
def digitLimit : Nat := 17

/-- The shortest decimal that reads back as the positive number `significand * 2 ^ exponent`. -/
def shortest (f : BinaryFormat) (tie : Tie) (significand : Nat) (exponent : Int) : Decimal :=
  let cell := Cell.of f significand exponent
  let lead := ratioLog10 cell.mid cell.den
  let found := (List.range digitLimit).findSome? fun (n : Nat) => cell.onGrid tie (lead - n)
  dropZeros (digitLimit + 1) (found.getD ⟨significand, 0⟩)

end Decimal

end Formula
