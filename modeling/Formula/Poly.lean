import Formula.Bounds
import Formula.Error

/-!
# Polynomials of any kind

A `Poly` is a Laurent polynomial together with the kind of its coefficients. Sums and products exist
within one kind only.
-/

namespace Formula

/-- A polynomial over one of the scalar types. -/
inductive Poly where
  | double (p : Laurent Float)
  | single (p : Laurent Float32)
  | fraction (p : Laurent Fraction)

namespace Poly

/-- A question asked of the polynomial inside. -/
def query {β : Type} (f : {α : Type} → [Scalar α] → Laurent α → β) : Poly → β
  | double p => f p
  | single p => f p
  | fraction p => f p

/-- An operation on the polynomial inside. -/
def map (f : {α : Type} → [Scalar α] → Laurent α → Laurent α) : Poly → Poly
  | double p => double (f p)
  | single p => single (f p)
  | fraction p => fraction (f p)

/-- An operation on two polynomials of one kind. -/
def zip? (f : {α : Type} → [Scalar α] → Laurent α → Laurent α → Laurent α) :
    Poly → Poly → Option Poly
  | double p, double q => some (double (f p q))
  | single p, single q => some (single (f p q))
  | fraction p, fraction q => some (fraction (f p q))
  | _, _ => none

def kind : Poly → Kind
  | double _ => .double
  | single _ => .single
  | fraction _ => .fraction

/-- The polynomial `x`. -/
def identity : Kind → Poly
  | .double => double Laurent.identity
  | .single => single Laurent.identity
  | .fraction => fraction Laurent.identity

/-- Equality of kinds, powers and coefficients. -/
def beq : Poly → Poly → Bool
  | double p, double q => p == q
  | single p, single q => p == q
  | fraction p, fraction q => p == q
  | _, _ => false

instance : BEq Poly := ⟨beq⟩

def termCount (p : Poly) : Nat := p.query Laurent.termCount
def isMonomial (p : Poly) : Bool := p.query Laurent.isMonomial
def bounds (p : Poly) : Bounds := p.query Laurent.bounds
def text (p : Poly) : String := p.query Laurent.text
def negated (p : Poly) : Poly := p.map Laurent.negated
def power (p : Poly) (n : Int) : Poly := p.map (·.power n)
def add? (p q : Poly) : Option Poly := zip? Laurent.added p q
def mul? (p q : Poly) : Option Poly := zip? Laurent.multiplied p q

/-- Whether the powers of a product fit, if there is one. -/
def productFits : Poly → Poly → Bool
  | double p, double q => p.productFits q
  | single p, single q => p.productFits q
  | fraction p, fraction q => p.productFits q
  | _, _ => true

/-- Whether all powers fit that the power to an integer exponent goes through. -/
def powerFits (p : Poly) (n : Int) : Bool :=
  p.query fun p => (p.power? n).isSome

/-- The value of a polynomial at a point, which must be of the same kind. -/
def evaluate (p : Poly) (x : Value) : Except EvalError Value :=
  let value? := p.query fun {α} _ p =>
    (Scalar.ofValue? x : Option α).map fun x => Scalar.toValue (p.eval x)
  match value? with
  | some v => .ok v
  | none => .error (.kindMismatch p.kind x.kind)

end Poly

end Formula
