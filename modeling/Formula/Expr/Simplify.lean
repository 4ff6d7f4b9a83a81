import Formula.Expr.Algebra
import Formula.Expr.Text

/-!
# Simplification

`simplified` is one pass over a tree from the leaves up: operators on constants are evaluated, all
others go through the node builders. `simplification` repeats the pass until nothing changes any
more, and keeps the result of every pass.

The running program ends where an operation overflows. `simplified?` and `passes?` are its passes, which
then have no result; a result of theirs is that of `simplified`.
-/

namespace Formula

namespace Expr

/-- The value of a node as a constant, or the node itself if it has none. -/
def folded (e : Expr) : Expr :=
  match e.evaluate (Value.zero e.kind) with
  | .ok v => constant v
  | .error _ => e

/-- An operator on a simplified operand. -/
def unaryNode (op : UnaryOp) (operand : Expr) : Expr :=
  if operand.constant?.isSome then (unary op operand).folded
  else
    match op with
    | .abs => absNode operand
    | .negate => negateNode operand
    | op => unary op operand

/-- An operator on simplified operands. -/
def binaryNode (op : BinaryOp) (left right : Expr) : Expr :=
  if left.constant?.isSome && right.constant?.isSome then (binary op left right).folded
  else
    match op with
    | .sum => sumNode left right
    | .difference => sumNode left (negateNode right)
    | .product => productNode left right
    | .quotient => quotientNode left right
    | .power => powerNode left right
    | op => binary op left right

/-- One pass of simplification. -/
def simplified : Expr → Expr
  | unary op operand => unaryNode op operand.simplified
  | binary op left right => binaryNode op left.simplified right.simplified
  | e => e

/-- Whether nothing overflows where an operator meets a simplified operand. -/
def unaryFits (op : UnaryOp) (operand : Expr) : Bool :=
  match op with
  | .abs => operand.absFits
  | _ => true

/-- Whether nothing overflows where an operator meets simplified operands. -/
def binaryFits (op : BinaryOp) (left right : Expr) : Bool :=
  match left, right with
  | constant v, constant w => op.fits v w
  | left, right =>
    match op with
    | .product => productFits left right
    | .quotient => quotientFits left right
    | .power => powerFits left right
    | _ => true

/-- Whether nothing overflows in a pass. -/
def passFits : Expr → Bool
  | unary op operand => operand.passFits && unaryFits op operand.simplified
  | binary op left right =>
    left.passFits && right.passFits && binaryFits op left.simplified right.simplified
  | _ => true

/-- One pass of simplification, unless an operation overflows in it. -/
def simplified? (e : Expr) : Option Expr :=
  if e.passFits then some e.simplified else none

theorem simplified?_eq_some {e f : Expr} :
    e.simplified? = some f ↔ e.passFits = true ∧ e.simplified = f := by
  unfold simplified?
  split
  · next h => rw [Option.some.injEq, and_iff_right h]
  · next h => exact ⟨nofun, fun hf => absurd hf.1 h⟩

/-- The result of a number of passes, unless an operation overflows in one of them. -/
def passes? : Nat → Expr → Option Expr
  | 0, e => some e
  | n + 1, e => e.simplified?.bind (passes? n)

/-- Whether two expressions are equal after one pass. -/
def equivalent (e f : Expr) : Bool :=
  e.simplified == f.simplified

end Expr

/-! ## Repeated passes -/

/-- The course of a repeated simplification. -/
structure Simplification where
  /-- The results of the passes, in order. -/
  passes : List Expr
  result : Expr
  /-- Whether the last pass changed nothing. -/
  converged : Bool

namespace Simplification

/-- The most passes that are made. -/
def maxPasses : Nat := 64

/-- Repeats the pass until nothing changes, a given number of times at most. -/
def run : Nat → Expr → Simplification
  | 0, e => ⟨[], e, false⟩
  | remaining + 1, e =>
    let next := e.simplified
    if next.isIdentical e then ⟨[next], next, true⟩
    else
      let rest := run remaining next
      { rest with passes := next :: rest.passes }

/-- Whether nothing overflows in the passes of `run`. -/
def fits : Nat → Expr → Bool
  | 0, _ => true
  | remaining + 1, e =>
    e.passFits && (e.simplified.isIdentical e || fits remaining e.simplified)

/-- What is reported about a simplification of `e`: every pass, and how it ended. -/
def report (e : Expr) (s : Simplification) : List String :=
  (s.passes.zipIdx 1).map (fun (next, pass) =>
    "simplify pass " ++ natText pass ++ ": " ++ next.text) ++
  [if s.converged then
    "simplified " ++ e.text ++ " to " ++ s.result.text ++ " in " ++ natText s.passes.length ++
      " passes"
  else
    "simplification of " ++ e.text ++ " stopped after " ++ natText maxPasses ++ " passes"]

end Simplification

namespace Expr

/-- The course of the simplification of an expression. -/
def simplification (e : Expr) : Simplification :=
  .run Simplification.maxPasses e

/-- The expression simplified until nothing changes. -/
def fixedPoint (e : Expr) : Expr :=
  e.simplification.result

/-- The course of the simplification, unless an operation overflows in it. -/
def simplification? (e : Expr) : Option Simplification :=
  if Simplification.fits Simplification.maxPasses e then some e.simplification else none

/-- The expression simplified until nothing changes, unless an operation overflows before. -/
def fixedPoint? (e : Expr) : Option Expr :=
  e.simplification?.map (·.result)

end Expr

end Formula
