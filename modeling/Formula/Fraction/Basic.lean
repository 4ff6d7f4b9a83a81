/-!
# Extended fractions

A `Fraction` is a quotient of naturals with a sign, an infinity, or NaN. Quotients are kept as they
come: only `simplified` puts one in lowest terms. Division by zero gives an infinity or NaN instead
of failing, so all operations are total.
-/

namespace Formula

/-- A number of the rationals extended with two infinities and NaN. -/
inductive Fraction where
  /-- The quotient `numerator / denominator`, negated if `negative`. -/
  | finite (negative : Bool) (numerator denominator : Nat)
  | infinite (negative : Bool)
  | nan
deriving DecidableEq, Inhabited

namespace Fraction

/-! ## Construction -/

/-- No zero denominators, and no negative zero. -/
def WellFormed : Fraction → Prop
  | finite negative numerator denominator =>
    denominator ≠ 0 ∧ (numerator = 0 → negative = false)
  | _ => True

/-- The fraction with the given sign and terms. A zero denominator gives an infinity, or NaN if the
numerator is zero too, and zero loses its sign. -/
def ofParts (negative : Bool) (numerator denominator : Nat) : Fraction :=
  if denominator = 0 then
    if numerator = 0 then nan else infinite negative
  else finite (negative && numerator != 0) numerator denominator

/-- The fraction of two integers. -/
def ofInts (numerator denominator : Int) : Fraction :=
  ofParts (decide (numerator < 0) != decide (denominator < 0)) numerator.natAbs denominator.natAbs

/-- An integer as a fraction. -/
def ofInt (n : Int) : Fraction :=
  ofInts n 1

def zero : Fraction := finite false 0 1

def one : Fraction := finite false 1 1

/-! ## Parts -/

def isFinite : Fraction → Bool
  | finite .. => true
  | _ => false

def isNaN : Fraction → Bool
  | nan => true
  | _ => false

/-- Whether the sign is set. -/
def isNegative : Fraction → Bool
  | finite negative _ _ => negative
  | infinite negative => negative
  | nan => false

/-- Whether the fraction is a finite integer. -/
def isWhole : Fraction → Bool
  | finite _ numerator denominator => numerator % denominator == 0
  | _ => false

/-- Integers of 64 bits are less than this, and at least its negation. -/
def wordBound : Nat := 9223372036854775808

/-- Whether an integer has 64 bits. -/
def isWord (n : Int) : Bool :=
  decide (-(wordBound : Int) ≤ n ∧ n < wordBound)

/-- A natural number with a sign. -/
def signed (negative : Bool) (magnitude : Nat) : Int :=
  if negative then -(magnitude : Int) else magnitude

/-- The numerator of a finite fraction, with its sign. -/
def signedNumerator? : Fraction → Option Int
  | finite negative numerator _ => some (signed negative numerator)
  | _ => none

/-- The denominator of a finite fraction. -/
def denominator? : Fraction → Option Nat
  | finite _ _ denominator => some denominator
  | _ => none

/-! ## Operations on one fraction -/

/-- The fraction in lowest terms. -/
def simplified : Fraction → Fraction
  | finite negative numerator denominator =>
    let divisor := numerator.gcd denominator
    if divisor = 0 ∨ divisor = 1 then finite negative numerator denominator
    else ofParts negative (numerator / divisor) (denominator / divisor)
  | f => f

/-- One divided by the fraction. The sign of an infinity is lost. -/
def reciprocal : Fraction → Fraction
  | finite negative numerator denominator => ofParts negative denominator numerator
  | infinite _ => zero
  | nan => nan

/-- The fraction without its fractional part. -/
def trunc : Fraction → Fraction
  | finite negative numerator denominator => ofParts negative (numerator / denominator) 1
  | f => f

def abs : Fraction → Fraction
  | finite _ numerator denominator => ofParts false numerator denominator
  | infinite _ => infinite false
  | nan => nan

def neg : Fraction → Fraction
  | finite negative numerator denominator => ofParts (!negative) numerator denominator
  | infinite negative => infinite (!negative)
  | nan => nan

instance : Neg Fraction := ⟨neg⟩

/-! ## Comparison -/

/-- Equality of values. NaN differs from everything. -/
def beq : Fraction → Fraction → Bool
  | finite a n d, finite b m e => a == b && n * e == m * d
  | infinite a, infinite b => a == b
  | _, _ => false

instance : BEq Fraction := ⟨beq⟩

/-- Whether the value is zero. -/
def isZero (f : Fraction) : Bool :=
  f == zero

/-- The order of the values: first by integer parts, rounded down, and then by the cross products
of the remainders. NaN is comparable with nothing. -/
def compare? : Fraction → Fraction → Option Ordering
  | nan, _ => none
  | _, nan => none
  | infinite a, infinite b => some (compare b.toNat a.toNat)
  | infinite a, finite .. => some (if a then .lt else .gt)
  | finite .., infinite b => some (if b then .gt else .lt)
  | finite a n d, finite b m e =>
    let left := signed a n
    let right := signed b m
    some ((compare (left.fdiv d) (right.fdiv e)).then
      (compare (left.fmod d * e) (right.fmod e * d)))

/-! ## Arithmetic -/

/-- The sum over the least common denominator, not reduced. -/
def add : Fraction → Fraction → Fraction
  | nan, _ => nan
  | _, nan => nan
  | infinite a, infinite b => if a = b then infinite a else nan
  | infinite a, finite .. => infinite a
  | finite .., infinite b => infinite b
  | finite a n d, finite b m e =>
    let common := d.lcm e
    ofInts (signed a (n * (common / d)) + signed b (m * (common / e))) common

instance : Add Fraction := ⟨add⟩

def sub (f g : Fraction) : Fraction :=
  f + -g

instance : Sub Fraction := ⟨sub⟩

/-- The product in lowest terms. Zero times an infinity is NaN. -/
def mul : Fraction → Fraction → Fraction
  | nan, _ => nan
  | _, nan => nan
  | finite a n d, finite b m e => (ofParts (a != b) (n * m) (d * e)).simplified
  | f, g => if f.isZero || g.isZero then nan else infinite (f.isNegative != g.isNegative)

instance : Mul Fraction := ⟨mul⟩

/-- The product with the reciprocal. The quotient of two infinities is NaN. -/
def div : Fraction → Fraction → Fraction
  | infinite _, infinite _ => nan
  | f, g => f * g.reciprocal

instance : Div Fraction := ⟨div⟩

/-- The remainder of the division with the quotient truncated, in lowest terms. -/
def modulo : Fraction → Fraction → Fraction
  | nan, _ => nan
  | _, nan => nan
  | infinite _, _ => nan
  | f, infinite _ => f
  | f, g => if g.isZero then nan else (f - g * (f / g).trunc).simplified

/-! ## Powers -/

/-- Multiplies `acc` by the `n`-th power of `base`, squaring `base` along the bits of `n`. -/
def mulPow (acc base : Fraction) (n : Nat) : Fraction :=
  if n = 0 then acc
  else
    let acc := if n % 2 = 1 then acc * base else acc
    let rest := n / 2
    if rest = 0 then acc else mulPow acc (base * base) rest
termination_by n

/-- The power to an integer exponent. -/
def powInt (f : Fraction) (n : Int) : Fraction :=
  let power := mulPow one f n.natAbs
  if n < 0 then one / power else power

end Fraction

end Formula
