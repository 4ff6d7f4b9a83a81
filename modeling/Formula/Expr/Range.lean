import Formula.Expr.Evaluate

/-!
# The range of an expression

`bounds` gives an interval with all values of an expression, by interval arithmetic. An expression
without a variable has its value for both ends.
-/

namespace Formula

/-- The range of an operation on what lies in the given interval. -/
def UnaryOp.bounds (op : UnaryOp) (b : Bounds) : Bounds :=
  match op with
  | negate => b.negated
  | abs => b.abs
  | sqrt => b.monotone Value.sqrt
  | ln => b.monotone Value.ln
  | log2 => b.monotone Value.log2
  | log10 => b.monotone Value.log10
  | factorial => ⟨Value.one b.kind, Value.infinity b.kind⟩

/-- The range of an operation of kind `k` on what lies in the given intervals. -/
def BinaryOp.bounds (op : BinaryOp) (k : Kind) (b c : Bounds) : Bounds :=
  match op with
  | sum => b.sum c
  | difference => b.sum c.negated
  | product => b.corners (· * ·) c
  | quotient => if c.containsZero then .unbounded k else b.corners (· / ·) c
  | modulo =>
    let reach := c.min.abs.max c.max.abs
    .ofCandidates k [-reach, reach]
  | power | logBase | nthDerivative | nthIntegral => .unbounded k

namespace Expr

/-- The value of an expression without a variable, unless it is NaN. -/
def constantValue? (e : Expr) : Option Value :=
  if e.isConstant then
    match e.evaluate (Value.zero e.kind) with
    | .ok v => if v.isNaN then none else some v
    | .error _ => none
  else none

/-- An interval with all values of an expression. -/
def bounds (e : Expr) : Bounds :=
  match e.constantValue? with
  | some v => .point v
  | none =>
    match e with
    | constant value => .point value
    | var _ k => .unbounded k
    | hole => .unbounded default
    | poly p => p.bounds
    | unary op operand => op.bounds operand.bounds
    | binary op left right =>
      op.bounds (left.kind.combine right.kind) left.bounds right.bounds

/-- Whether nothing overflows on the way to the range: the values of the parts without a variable are
all that can. -/
def boundsFit (e : Expr) : Bool :=
  (!e.isConstant || e.evaluateFits (Value.zero e.kind)) &&
  (e.constantValue?.isSome ||
    match e with
    | unary _ operand => operand.boundsFit
    | binary _ left right => left.boundsFit && right.boundsFit
    | _ => true)

/-- The range of an expression, unless an operation overflows before. -/
def bounds? (e : Expr) : Option Bounds :=
  if e.boundsFit then some e.bounds else none

/-- Whether all values are negative, or none is, or neither is known. -/
def isNegative? (e : Expr) : Option Bool :=
  e.bounds.isNegative?

end Expr

end Formula
