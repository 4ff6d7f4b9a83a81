import Formula.Binary.Floating
import Formula.Fraction.Basic

/-!
# Fractions and 64-bit numbers

Every finite 64-bit number is a fraction, and `ofDouble` gives it in lowest terms. In the other
direction `toDouble` rounds the terms of the fraction separately and then their quotient, so the
result can be off by more than one rounding of the exact value.

The magnitude of the exponent of a power is taken in 64 bits. The least integer of 64 bits has none
there: `pow?` ends at this exponent, while `pow` goes on with the magnitude that wraps around.
-/

namespace Formula.Fraction

/-- The exact value of a 64-bit number, in lowest terms. -/
def ofDouble (x : Float) : Fraction :=
  match Floating.decode x with
  | .nan => nan
  | .infinite negative => infinite negative
  | .finite negative significand exponent =>
    let denominator := Nat.pow 2 (-exponent).toNat
    (ofParts negative (significand * Nat.pow 2 exponent.toNat) denominator).simplified

/-- The number of binary digits; zero has none. -/
def bitLength (n : Nat) : Nat :=
  if n = 0 then 0 else n.log2 + 1

/-- Terms of more bits than this are shifted down before they are rounded. -/
def bitLimit : Nat := 1000

/-- The quotient of the rounded terms, rounded. -/
def ratioToDouble (negative : Bool) (numerator denominator : Nat) : Float :=
  let shift := max (bitLength numerator) (bitLength denominator) - bitLimit
  let n := BinaryFormat.double.roundNat (numerator / Nat.pow 2 shift)
  let d := BinaryFormat.double.roundNat (denominator / Nat.pow 2 shift)
  if d = 0 then Floating.infinity negative else Floating.ofRatio negative n d

/-- A 64-bit number close to the fraction. -/
def toDouble : Fraction → Float
  | finite negative numerator denominator => ratioToDouble negative numerator denominator
  | infinite negative => Floating.infinity negative
  | nan => Floating.nan

/-- Exponents of at most this magnitude are raised to by repeated multiplication. -/
def exactPowerLimit : Int64 := 4096

/-- The exponent as a 64-bit integer, if it is whole and of a magnitude that repeated
multiplication takes on. -/
def exactExponent? (exponent : Fraction) : Option Int :=
  if exponent.isWhole then
    match exponent.trunc.signedNumerator? with
    | some n =>
      if -(wordBound : Int) ≤ n ∧ n < wordBound ∧ (Int64.ofInt n).abs ≤ exactPowerLimit then some n
      else none
    | none => none
  else none

/-- The power: exact for whole exponents within the limit, otherwise by way of 64-bit numbers. -/
def pow (base exponent : Fraction) : Fraction :=
  match exactExponent? exponent with
  | some n => base.powInt n
  | none => ofDouble (Float.pow base.toDouble exponent.toDouble)

/-- Whether the magnitude of the exponent fits: it does not for the least integer of 64 bits. -/
def exponentFits (exponent : Fraction) : Bool :=
  !(exponent.isWhole && exponent.trunc.signedNumerator? == some (-(wordBound : Int)))

/-- The power, unless the magnitude of the exponent overflows. -/
def pow? (base exponent : Fraction) : Option Fraction :=
  if exponent.exponentFits then some (base.pow exponent) else none

end Formula.Fraction
