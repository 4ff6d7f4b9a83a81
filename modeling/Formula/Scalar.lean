import Formula.Decimal.Style
import Formula.Fraction.Rounding
import Formula.Fraction.Text
import Formula.Kind

/-!
# Scalars

`Scalar` is what polynomials and expressions need of a number type. It has three instances, one for
each `Kind`, and a `Value` is a number of any of them. The machine types take roots, logarithms and
powers in their own precision; fractions take them by way of 64-bit numbers.
-/

namespace Formula

/-- A number together with its kind. -/
inductive Value where
  | double (x : Float)
  | single (x : Float32)
  | fraction (f : Fraction)

/-- A number type that expressions can be built over. -/
class Scalar (α : Type) extends Add α, Sub α, Mul α, Div α, Neg α, BEq α where
  kind : Kind
  /-- Factorials of greater numbers are infinite. -/
  factorialLimit : Nat
  zero : α
  one : α
  least : α
  greatest : α
  infinity : α
  nan : α
  ofDouble : Float → α
  ofInt : Int → α
  toDouble : α → Float
  /-- The order of two numbers, unless one of them is NaN. -/
  compare? : α → α → Option Ordering
  isNaN : α → Bool
  isWhole : α → Bool
  isNegative : α → Bool
  abs : α → α
  powInt : α → Int → α
  pow : α → α → α
  /-- The logarithm of the first argument to the base of the second. -/
  logBase : α → α → α
  modulo : α → α → α
  sqrt : α → α
  ln : α → α
  log2 : α → α
  log10 : α → α
  /-- The text of a coefficient. -/
  text : α → String
  toValue : α → Value
  /-- The number inside a value of this kind. -/
  ofValue? : Value → Option α

/-- Coefficients are never written with an exponent, and a whole one has no point. -/
def coefficientStyle : NumberStyle where
  positional := none
  keepsPoint := false
  plusSign := false
  tie := .greater
  nan := "NaN"
  infinity := "inf"
  negativeInfinity := "-inf"

instance : Scalar Float where
  kind := .double
  factorialLimit := 171
  zero := 0
  one := 1
  least := Floating.extreme true
  greatest := Floating.extreme false
  infinity := Floating.infinity false
  nan := Floating.nan
  ofDouble x := x
  ofInt := Floating.ofInt
  toDouble x := x
  compare? x y := if x < y then some .lt else if x == y then some .eq else if y < x then some .gt
    else none
  isNaN := Float.isNaN
  isWhole := Floating.isWhole
  isNegative x := x < 0
  abs := Float.abs
  powInt x n := Float.pow x (Floating.ofInt n)
  pow := Float.pow
  logBase x b := Float.log x / Float.log b
  modulo := Floating.remainder
  sqrt := Float.sqrt
  ln := Float.log
  log2 := Float.log2
  log10 := Float.log10
  text := coefficientStyle.write
  toValue := .double
  ofValue?
    | .double x => some x
    | _ => none

instance : Scalar Float32 where
  kind := .single
  factorialLimit := 34
  zero := 0
  one := 1
  least := Floating.extreme true
  greatest := Floating.extreme false
  infinity := Floating.infinity false
  nan := Floating.nan
  ofDouble := Floating.convert
  ofInt := Floating.ofInt
  toDouble := Floating.convert
  compare? x y := if x < y then some .lt else if x == y then some .eq else if y < x then some .gt
    else none
  isNaN := Float32.isNaN
  isWhole := Floating.isWhole
  isNegative x := x < 0
  abs := Float32.abs
  powInt x n := Float32.pow x (Floating.ofInt n)
  pow := Float32.pow
  logBase x b := Float32.log x / Float32.log b
  modulo := Floating.remainder
  sqrt := Float32.sqrt
  ln := Float32.log
  log2 := Float32.log2
  log10 := Float32.log10
  text := coefficientStyle.write
  toValue := .single
  ofValue?
    | .single x => some x
    | _ => none

instance : Scalar Fraction where
  kind := .fraction
  factorialLimit := 1000
  zero := Fraction.zero
  one := Fraction.one
  least := Fraction.ofInt (1 - Fraction.wordBound)
  greatest := Fraction.ofInt (Fraction.wordBound - 1)
  infinity := .infinite false
  nan := .nan
  ofDouble := Fraction.ofDouble
  ofInt := Fraction.ofInt
  toDouble := Fraction.toDouble
  compare? := Fraction.compare?
  isNaN := Fraction.isNaN
  isWhole := Fraction.isWhole
  isNegative := Fraction.isNegative
  abs := Fraction.abs
  powInt := Fraction.powInt
  pow := Fraction.pow
  logBase f b := .ofDouble (Float.log f.toDouble / Float.log b.toDouble)
  modulo := Fraction.modulo
  sqrt f := .ofDouble (Float.sqrt f.toDouble)
  ln f := .ofDouble (Float.log f.toDouble)
  log2 f := .ofDouble (Float.log2 f.toDouble)
  log10 f := .ofDouble (Float.log10 f.toDouble)
  text := Fraction.text
  toValue := .fraction
  ofValue?
    | .fraction f => some f
    | _ => none

namespace Scalar

variable {α : Type} [Scalar α]

/-- Whether a number equals zero. -/
def isZero (x : α) : Bool :=
  x == zero

/-- Whether `x` is known to be less than `y`. -/
def lt (x y : α) : Bool :=
  compare? x y == some .lt

/-- Whether `x` is known to be at most `y`. -/
def le (x y : α) : Bool :=
  compare? x y == some .lt || compare? x y == some .eq

/-- Multiplies `acc` by `factor`, `factor + 1`, … as long as they are at most `x`; the first
argument bounds their number. -/
def factorialLoop (x : α) : Nat → α → α → α
  | 0, acc, _ => acc
  | steps + 1, acc, factor =>
    if le factor x then factorialLoop x steps (acc * factor) (factor + one) else acc

/-- The factorial of a whole number that is not negative. It is NaN for all others, and infinite
beyond the limit of the type. -/
def factorial (x : α) : α :=
  if isNaN x || !isWhole x || isNegative x then nan
  else if lt (ofInt (factorialLimit α)) x then infinity
  else factorialLoop x (factorialLimit α) one (ofInt 2)

end Scalar

end Formula
