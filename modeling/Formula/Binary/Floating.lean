import Formula.Binary.Format

/-!
# Machine numbers

`Floating` is the view of a machine number type as words of a binary format. Conversions between
types, conversions from and to integers and the remainder are defined on the exact numbers behind
the words; the four operations and the comparisons are those of the types themselves.
-/

namespace Formula

/-- A machine number type whose values are the words of a binary format. -/
class Floating (α : Type) where
  format : BinaryFormat
  ofWord : Nat → α
  toWord : α → Nat

instance : Floating Float where
  format := .double
  ofWord word := Float.ofBits (UInt64.ofNat word)
  toWord x := x.toBits.toNat

instance : Floating Float32 where
  format := .single
  ofWord word := Float32.ofBits (UInt32.ofNat word)
  toWord x := x.toBits.toNat

namespace Floating

variable {α β : Type} [Floating α] [Floating β]

/-- The exact number behind a value. -/
def decode (x : α) : Binary :=
  (format α).decode (toWord x)

/-- Positive or negative infinity. -/
def infinity (negative : Bool) : α :=
  ofWord ((format α).withSign negative (format α).infinityWord)

/-- Not a number. -/
def nan : α :=
  ofWord (format α).nanWord

/-- The number nearest to `num / den`, negated if `negative`. -/
def ofRatio (negative : Bool) (num den : Nat) : α :=
  ofWord ((format α).withSign negative ((format α).roundMagnitude num den))

/-- The number nearest to an integer. -/
def ofInt (n : Int) : α :=
  ofRatio (n < 0) n.natAbs 1

/-- The number nearest to an exact one. -/
def ofBinary : Binary → α
  | .nan => nan
  | .infinite negative => infinity negative
  | .finite negative significand exponent =>
    ofRatio negative (significand * Nat.pow 2 exponent.toNat) (Nat.pow 2 (-exponent).toNat)

/-- The number of another type nearest to `x`. -/
def convert (x : α) : β :=
  ofBinary (decode x)

/-- The largest finite number, or the least one. -/
def extreme (negative : Bool) : α :=
  ofWord ((format α).withSign negative ((format α).infinityWord - 1))

/-- Whether `x` is a finite integer. -/
def isWhole (x : α) : Bool :=
  match decode x with
  | .finite _ significand exponent => significand % Nat.pow 2 (-exponent).toNat == 0
  | _ => false

/-- The integer part of a finite number; zero otherwise. -/
def truncate (x : α) : Int :=
  match decode x with
  | .finite negative significand exponent =>
    let magnitude := significand * Nat.pow 2 exponent.toNat / Nat.pow 2 (-exponent).toNat
    if negative then -(magnitude : Int) else magnitude
  | _ => 0

/-- The remainder of the division of `x` by `y` with the quotient truncated. It has the sign of
`x` and is computed without rounding. -/
def remainder (x y : α) : α :=
  match decode x, decode y with
  | .finite negative m e, .finite _ n d =>
    if n = 0 then nan
    else
      let unit := min e d
      let rest := (m * Nat.pow 2 (e - unit).toNat) % (n * Nat.pow 2 (d - unit).toNat)
      ofBinary (.finite negative rest unit)
  | .finite .., .infinite _ => x
  | _, _ => nan

end Floating

end Formula
