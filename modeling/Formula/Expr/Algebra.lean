import Formula.Expr.Range

/-!
# Building simplified nodes

One function per operator joins operands that are already simplified. It applies the identities of
the operator, cancels inverses and computes with polynomials, as long as the operands are of one
kind; otherwise it makes a plain node. The absolute value asks for the signs of its operands.

Where the powers of polynomials overflow, or a value that decides about a sign, the running program
ends: beside a builder that can meet this, a test ending in `Fits` tells whether it does not.
-/

namespace Formula.Expr

def isZeroConstant (e : Expr) : Bool :=
  e.constant?.any Value.isZero

def isOneConstant (e : Expr) : Bool :=
  e.constant?.any Value.isOne

/-- A polynomial as an expression; without terms it is the constant zero. -/
def ofPoly (p : Poly) : Expr :=
  if p.termCount = 0 then zero p.kind else poly p

/-! ## Sums -/

/-- Whether two expressions are each other's negation by sight. -/
def cancels (left right : Expr) : Bool :=
  match right with
  | constant b => left.constant?.any (· == -b)
  | unary .negate operand => operand == left
  | poly q =>
    match left with
    | poly p => p == q.negated
    | _ => false
  | _ =>
    match left with
    | unary .negate operand => operand == right
    | _ => false

/-- The sum of two polynomials of one kind. -/
def polySum? : Expr → Expr → Option Poly
  | poly p, poly q => p.add? q
  | _, _ => none

/-- The sum of simplified operands. -/
def sumNode (left right : Expr) : Expr :=
  if left.kind = right.kind then
    if right.isZeroConstant then left
    else if left.isZeroConstant then right
    else
      match polySum? left right with
      | some p => ofPoly p
      | none => if cancels left right then zero left.kind else binary .sum left right
  else binary .sum left right

/-! ## Products and quotients -/

/-- The product of two polynomials of one kind. -/
def polyProduct? : Expr → Expr → Option Poly
  | poly p, poly q => p.mul? q
  | _, _ => none

/-- What is left of a product whose first factor is a quotient with the second factor for its
denominator, or turned upside down. -/
def cancelQuotient? (k : Kind) : Expr → Expr → Option Expr
  | binary .quotient numerator denominator, other =>
    if denominator == other then some numerator
    else
      match other with
      | binary .quotient n d => if n == denominator && d == numerator then some (one k) else none
      | _ => none
  | _, _ => none

/-- The product of simplified operands. -/
def productNode (left right : Expr) : Expr :=
  if left.kind = right.kind then
    if left.isZeroConstant || right.isZeroConstant then zero left.kind
    else if right.isOneConstant then left
    else if left.isOneConstant then right
    else
      match polyProduct? left right with
      | some p => ofPoly p
      | none =>
        match cancelQuotient? left.kind left right with
        | some e => e
        | none =>
          match cancelQuotient? left.kind right left with
          | some e => e
          | none => binary .product left right
  else binary .product left right

/-- Whether no power overflows in the product of simplified operands. -/
def productFits : Expr → Expr → Bool
  | poly p, poly q => p.productFits q
  | _, _ => true

/-- The quotient of a polynomial by a polynomial of one term. -/
def polyQuotient? : Expr → Expr → Option Poly
  | poly p, poly q => if q.isMonomial then p.mul? (q.power (-1)) else none
  | _, _ => none

/-- The quotient of simplified operands. -/
def quotientNode (left right : Expr) : Expr :=
  if left.kind = right.kind then
    if right.isOneConstant then left
    else if left == right && !left.isZeroConstant then one left.kind
    else
      match polyQuotient? left right with
      | some p => ofPoly p
      | none =>
        match left with
        | binary .quotient numerator denominator =>
          if numerator == right then binary .quotient (one left.kind) denominator
          else binary .quotient numerator (productNode denominator right)
        | _ => binary .quotient left right
  else binary .quotient left right

/-- Whether no power overflows in the quotient of simplified operands. -/
def quotientFits (left right : Expr) : Bool :=
  left.kind != right.kind || right.isOneConstant || (left == right && !left.isZeroConstant) ||
  match left, right with
  | poly p, poly q => !q.isMonomial || (q.powerFits (-1) && p.productFits (q.power (-1)))
  | binary .quotient numerator denominator, right =>
    numerator == right || productFits denominator right
  | _, _ => true

/-! ## Powers -/

/-- Polynomials are raised to exponents of at most this magnitude. -/
def polyPowerLimit : Nat := 64

/-- The power of a polynomial to a small integer, which may be negative for a single term. -/
def polyPower? (base : Expr) (exponent : Value) : Option Poly :=
  match base, exponent.toWhole? with
  | poly p, some n =>
    if n.natAbs ≤ polyPowerLimit ∧ (0 ≤ n ∨ p.isMonomial) then some (p.power n) else none
  | _, _ => none

/-- The power of simplified operands. -/
def powerNode (base exponent : Expr) : Expr :=
  match exponent with
  | constant value =>
    if base.kind = value.kind then
      if value.isOne then base
      else if value.isZero then one base.kind
      else
        match polyPower? base value with
        | some p => ofPoly p
        | none => binary .power base exponent
    else binary .power base exponent
  | _ => binary .power base exponent

/-- Whether no power overflows in the power of simplified operands. -/
def powerFits : Expr → Expr → Bool
  | poly p, constant value =>
    p.kind != value.kind || value.isOne || value.isZero ||
    match value.toWhole? with
    | some n => !decide (n.natAbs ≤ polyPowerLimit ∧ (0 ≤ n ∨ p.isMonomial)) || p.powerFits n
    | none => true
  | _, _ => true

/-! ## Signs -/

/-- The negation of a simplified operand. -/
def negateNode : Expr → Expr
  | constant value => constant (-value)
  | unary .negate operand => operand
  | poly p => poly p.negated
  | e => unary .negate e

/-- The absolute value of an operand whose sign is known. -/
def signedAbs (negative : Bool) (operand : Expr) : Expr :=
  if negative then negateNode operand else operand

/-- The absolute value of a simplified operand. -/
def absNode : Expr → Expr
  | constant value => constant value.abs
  | unary .abs operand => unary .abs operand
  | unary .negate operand => absNode operand
  | binary .sum left right =>
    match left.isNegative?, right.isNegative? with
    | some l, some r =>
      if l = r then sumNode (signedAbs l left) (signedAbs r right)
      else unary .abs (binary .sum left right)
    | _, _ => unary .abs (binary .sum left right)
  | binary .product left right =>
    match left.isNegative?, right.isNegative? with
    | some l, some r => binary .product (signedAbs l left) (signedAbs r right)
    | _, _ => unary .abs (binary .product left right)
  | binary .quotient left right =>
    match left.isNegative?, right.isNegative? with
    | some l, some r => binary .quotient (signedAbs l left) (signedAbs r right)
    | _, _ => unary .abs (binary .quotient left right)
  | binary .power left right =>
    match left.isNegative? with
    | some negative => binary .power (signedAbs negative left) right
    | none => unary .abs (binary .power left right)
  | e =>
    match e.isNegative? with
    | some negative => signedAbs negative e
    | none => unary .abs e

/-- Whether nothing overflows in the ranges that the absolute value asks for. -/
def absFits : Expr → Bool
  | constant _ => true
  | unary .abs _ => true
  | unary .negate operand => operand.absFits
  | binary .sum left right => left.boundsFit && right.boundsFit
  | binary .product left right => left.boundsFit && right.boundsFit
  | binary .quotient left right => left.boundsFit && right.boundsFit
  | binary .power left _ => left.boundsFit
  | e => e.boundsFit

end Formula.Expr
