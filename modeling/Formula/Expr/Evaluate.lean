import Formula.Expr.Basic

/-!
# Evaluation

The value of an expression at a point. `evaluate` is total; the running program ends where a power
overflows, so it has the value only as far as `evaluate?` has one.
-/

namespace Formula.Expr

/-- The value of an expression where its variable is `x`. Of two operands without a value the left
one gives the reason. -/
def evaluate (x : Value) : Expr → Except EvalError Value
  | constant value => .ok value
  | var name _ => .error (.unboundVariable name)
  | hole => .error .unresolved
  | poly p => p.evaluate x
  | unary op operand =>
    match operand.evaluate x with
    | .ok v => .ok (op.apply v)
    | .error e => .error e
  | binary op left right =>
    match left.evaluate x with
    | .error e => .error e
    | .ok v =>
      match right.evaluate x with
      | .error e => .error e
      | .ok w =>
        match op.evaluate? v w with
        | some r => .ok r
        | none => .error (.unsupported op)

/-- Whether nothing overflows on the way to the value. Operands behind an error are not looked at. -/
def evaluateFits (x : Value) : Expr → Bool
  | unary _ operand => operand.evaluateFits x
  | binary op left right =>
    left.evaluateFits x &&
    match left.evaluate x with
    | .error _ => true
    | .ok v =>
      right.evaluateFits x &&
      match right.evaluate x with
      | .error _ => true
      | .ok w => op.fits v w
  | _ => true

/-- The value of an expression, unless an operation overflows before. -/
def evaluate? (x : Value) (e : Expr) : Option (Except EvalError Value) :=
  if e.evaluateFits x then some (e.evaluate x) else none

end Formula.Expr
