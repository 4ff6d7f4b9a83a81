import Formula.Laurent.Basic
import Formula.Value

/-!
# Bounds

An interval that is known to hold a quantity. Operations take the extremes over a few candidate
values, and give up to the whole line as soon as one of them is NaN.
-/

namespace Formula

/-- A closed interval of values. -/
structure Bounds where
  min : Value
  max : Value

namespace Bounds

/-- Equality of both ends. -/
def beq (b c : Bounds) : Bool :=
  b.min == c.min && b.max == c.max

instance : BEq Bounds := ⟨beq⟩

/-- The interval of one value. -/
def point (v : Value) : Bounds :=
  ⟨v, v⟩

/-- The whole line. -/
def unbounded (k : Kind) : Bounds :=
  ⟨-Value.infinity k, Value.infinity k⟩

/-- The interval widened to a further value. -/
def insert (b : Bounds) (v : Value) : Bounds :=
  ⟨b.min.min v, b.max.max v⟩

/-- The least interval with the given values, or the whole line if there are none or one of them is
NaN. -/
def ofCandidates (k : Kind) (candidates : List Value) : Bounds :=
  if candidates.any Value.isNaN then unbounded k
  else
    match candidates with
    | [] => unbounded k
    | v :: rest => rest.foldl insert (point v)

def kind (b : Bounds) : Kind :=
  b.min.kind.combine b.max.kind

def contains (b : Bounds) (v : Value) : Bool :=
  b.min.le v && v.le b.max

def containsZero (b : Bounds) : Bool :=
  b.contains (Value.zero b.kind)

/-- Whether everything in the interval is negative, or nothing is, or neither is known. -/
def isNegative? (b : Bounds) : Option Bool :=
  if b.max.lt (Value.zero b.kind) then some true
  else if (Value.zero b.kind).le b.min then some false
  else none

def sum (b c : Bounds) : Bounds :=
  ofCandidates (b.kind.combine c.kind) [b.min + c.min, b.max + c.max]

def negated (b : Bounds) : Bounds :=
  ⟨-b.max, -b.min⟩

/-- The extremes over the four pairs of ends. -/
def corners (f : Value → Value → Value) (b c : Bounds) : Bounds :=
  ofCandidates (b.kind.combine c.kind)
    [f b.min c.min, f b.min c.max, f b.max c.min, f b.max c.max]

/-- The image under a growing function that is defined from zero on. -/
def monotone (f : Value → Value) (b : Bounds) : Bounds :=
  ofCandidates b.kind [f (b.min.max (Value.zero b.kind)), f b.max]

/-- The interval of magnitudes. -/
def abs (b : Bounds) : Bounds :=
  match b.isNegative? with
  | some false => b
  | some true => b.negated
  | none => ⟨Value.zero b.kind, (-b.min).max b.max⟩

end Bounds

/-! ## Polynomials -/

namespace Laurent

variable {α : Type} [Scalar α]

/-- The range of one term, from its limits at the infinities and at zero. -/
def termBounds (power : Int) (c : α) : Bounds :=
  let term := monomial c power
  Bounds.ofCandidates (Scalar.kind α)
    ([term.limitAtInfinity false, term.limitAtInfinity true,
      term.limitAtZero false, term.limitAtZero true].map Scalar.toValue)

/-- The sum of the ranges of the terms, from the highest power down. -/
def bounds (p : Laurent α) : Bounds :=
  p.descending.foldl (fun total (power, c) => total.sum (termBounds power c))
    (Bounds.point (Scalar.toValue (Scalar.zero : α)))

end Laurent

end Formula
