/-!
# Binary interchange formats

A `BinaryFormat` fixes how many bits of a word hold the fraction and the exponent of a floating
point number. `decode` reads a word as an exact number `± significand * 2 ^ exponent`, and
`roundMagnitude` goes the other way: it gives the word of the number nearest to a quotient of
naturals, a tie going to the even significand. Everything is exact arithmetic on `Nat` and `Int`.
-/

namespace Formula

/-! ## Rounding quotients of naturals -/

/-- `num / den` rounded to the nearest natural number, a half going to the even neighbour. -/
def roundHalfEven (num den : Nat) : Nat :=
  let quotient := num / den
  let remainder := num % den
  if 2 * remainder < den then quotient
  else if den < 2 * remainder then quotient + 1
  else quotient + quotient % 2

/-- The exponent `e` with `2 ^ e ≤ num / den < 2 ^ (e + 1)`, for positive `num` and `den`. -/
def ratioLog2 (num den : Nat) : Int :=
  let e : Int := (num.log2 : Int) - den.log2
  if den * Nat.pow 2 e.toNat ≤ num * Nat.pow 2 (-e).toNat then e else e - 1

/-- `num / den / 2 ^ e` rounded to the nearest natural number. -/
def roundScaled (num den : Nat) (e : Int) : Nat :=
  roundHalfEven (num * Nat.pow 2 (-e).toNat) (den * Nat.pow 2 e.toNat)

/-! ## Formats -/

/-- The number a word of a binary format stands for. -/
inductive Binary where
  | nan
  | infinite (negative : Bool)
  /-- The number `significand * 2 ^ exponent`, negated if `negative`. -/
  | finite (negative : Bool) (significand : Nat) (exponent : Int)
deriving DecidableEq

/-- The layout of a floating point word: a sign bit, the exponent field, the fraction field. -/
structure BinaryFormat where
  fractionBits : Nat
  exponentBits : Nat
deriving DecidableEq

namespace BinaryFormat

/-- The layout of 64-bit numbers. -/
def double : BinaryFormat := ⟨52, 11⟩

/-- The layout of 32-bit numbers. -/
def single : BinaryFormat := ⟨23, 8⟩

/-- The exponent of the last place of the smallest numbers. -/
def minExponent (f : BinaryFormat) : Int :=
  2 - (Nat.pow 2 (f.exponentBits - 1) : Nat) - f.fractionBits

/-- The exponent field that marks infinities and NaN. -/
def specialExponent (f : BinaryFormat) : Nat :=
  Nat.pow 2 f.exponentBits - 1

/-- The word of positive infinity. -/
def infinityWord (f : BinaryFormat) : Nat :=
  f.specialExponent * Nat.pow 2 f.fractionBits

/-- The word of the one NaN that is ever produced. -/
def nanWord (f : BinaryFormat) : Nat :=
  f.infinityWord + Nat.pow 2 (f.fractionBits - 1)

/-- The weight of the sign bit. -/
def signWeight (f : BinaryFormat) : Nat :=
  Nat.pow 2 (f.exponentBits + f.fractionBits)

/-- Puts a sign on the word of a magnitude. -/
def withSign (f : BinaryFormat) (negative : Bool) (magnitude : Nat) : Nat :=
  if negative then f.signWeight + magnitude else magnitude

/-- The number a word stands for. -/
def decode (f : BinaryFormat) (word : Nat) : Binary :=
  let negative := word / f.signWeight % 2 == 1
  let exponent := word / Nat.pow 2 f.fractionBits % Nat.pow 2 f.exponentBits
  let fraction := word % Nat.pow 2 f.fractionBits
  if exponent = f.specialExponent then
    if fraction = 0 then .infinite negative else .nan
  else if exponent = 0 then .finite negative fraction f.minExponent
  else .finite negative (Nat.pow 2 f.fractionBits + fraction) (f.minExponent + exponent - 1)

/-- The word of the number nearest to `num / den`. The significand is rounded in units of the last
place, so that a carry out of it moves on to the next exponent, and a number beyond the largest
one becomes infinity. -/
def roundMagnitude (f : BinaryFormat) (num den : Nat) : Nat :=
  if num = 0 then 0
  else
    let e := max (ratioLog2 num den - f.fractionBits) f.minExponent
    let steps := (e - f.minExponent).toNat
    min (steps * Nat.pow 2 f.fractionBits + roundScaled num den e) f.infinityWord

/-- `n` rounded to as many leading bits as a significand holds. -/
def roundNat (f : BinaryFormat) (n : Nat) : Nat :=
  let e := n.log2 - f.fractionBits
  roundHalfEven n (Nat.pow 2 e) * Nat.pow 2 e

end BinaryFormat

end Formula
