import Formula.Value

/-!
# Operators

The operators of expressions: what they compute, how they are spelled, where their operands stand
and in which order they are applied.
-/

namespace Formula

/-- Operators of one operand. -/
inductive UnaryOp where
  | abs
  | negate
  | sqrt
  | ln
  | log2
  | log10
  | factorial
deriving DecidableEq

/-- Operators of two operands. -/
inductive BinaryOp where
  | sum
  | difference
  | product
  | quotient
  | power
  /-- The logarithm of the right operand to the base of the left one. -/
  | logBase
  | modulo
  | nthDerivative
  | nthIntegral
deriving DecidableEq

/-- An operator of either sort. -/
inductive Operator where
  | unary (op : UnaryOp)
  | binary (op : BinaryOp)
deriving DecidableEq

/-- Where an operator stands. -/
inductive Position where
  | beforeOperands
  | afterOperand
  | betweenOperands
deriving DecidableEq

/-- Groups of operators that are applied together. -/
inductive Tier where
  | container
  | application
  | factorial
  | modulo
  | exponent
  | multiplication
  | addition
deriving DecidableEq

/-- The tiers in the order in which they are applied. -/
def Tier.descending : List Tier :=
  [.container, .application, .factorial, .modulo, .exponent, .multiplication, .addition]

namespace UnaryOp

/-- The spelling; a negation shares the minus of the difference and has none of its own. -/
def keyword : UnaryOp → String
  | abs => "abs"
  | negate => ""
  | sqrt => "sqrt"
  | ln => "ln"
  | log2 => "log2"
  | log10 => "log10"
  | factorial => "!"

def position : UnaryOp → Position
  | factorial => .afterOperand
  | _ => .beforeOperands

def tier : UnaryOp → Tier
  | negate => .multiplication
  | factorial => .factorial
  | _ => .application

/-- What the operator makes of a value. -/
def apply (op : UnaryOp) (v : Value) : Value :=
  match op with
  | abs => v.abs
  | negate => -v
  | sqrt => v.sqrt
  | ln => v.ln
  | log2 => v.log2
  | log10 => v.log10
  | factorial => v.factorial

end UnaryOp

namespace BinaryOp

def keyword : BinaryOp → String
  | sum => "+"
  | difference => "-"
  | product => "*"
  | quotient => "/"
  | power => "^"
  | logBase => "logx"
  | modulo => "mod"
  | nthDerivative => "nthderivative"
  | nthIntegral => "nthintegral"

def position : BinaryOp → Position
  | logBase | modulo | nthDerivative | nthIntegral => .beforeOperands
  | _ => .betweenOperands

def tier : BinaryOp → Tier
  | sum | difference => .addition
  | product | quotient => .multiplication
  | power | logBase => .exponent
  | modulo => .modulo
  | nthDerivative | nthIntegral => .application

/-- What the operator makes of two values. Derivatives and integrals have no value. -/
def evaluate? (op : BinaryOp) (v w : Value) : Option Value :=
  match op with
  | sum => some (v + w)
  | difference => some (v - w)
  | product => some (v * w)
  | quotient => some (v / w)
  | power => some (v.pow w)
  | logBase => some (w.logBase v)
  | modulo => some (v.modulo w)
  | nthDerivative | nthIntegral => none

/-- Whether nothing overflows where the operator is applied to two values. -/
def fits (op : BinaryOp) (v w : Value) : Bool :=
  match op with
  | power => v.powFits w
  | _ => true

end BinaryOp

namespace Operator

def keyword : Operator → String
  | unary op => op.keyword
  | binary op => op.keyword

def position : Operator → Position
  | unary op => op.position
  | binary op => op.position

def tier : Operator → Tier
  | unary op => op.tier
  | binary op => op.tier

/-- Where the operands stand, counted from the operator. -/
def operandOffsets (op : Operator) : List Int :=
  match op, op.position with
  | unary _, .afterOperand => [-1]
  | unary _, _ => [1]
  | binary _, .beforeOperands => [1, 2]
  | binary _, _ => [-1, 1]

/-- The word for the operator in messages. -/
def symbol : Operator → String
  | unary .negate => "-"
  | op => op.keyword

/-- The operators that have a spelling, longer ones first. -/
def spelled : List Operator :=
  [binary .nthDerivative, binary .nthIntegral, unary .log10, unary .sqrt, unary .log2,
   binary .logBase, unary .abs, binary .modulo, unary .ln, unary .factorial, binary .sum,
   binary .difference, binary .product, binary .quotient, binary .power]

end Operator

end Formula
