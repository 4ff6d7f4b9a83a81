import Formula.Poly

/-!
# Expressions

The expression tree, its kind and its shape. A `hole` stands for an operand that is still missing:
an operator all of whose operands are holes is pending, and takes its operands from its neighbours
when an expression is put together.
-/

namespace Formula

/-- An expression in one variable. -/
inductive Expr where
  | constant (value : Value)
  | var (name : String) (kind : Kind)
  | poly (p : Poly)
  | unary (op : UnaryOp) (operand : Expr)
  | binary (op : BinaryOp) (left right : Expr)
  /-- An operand that is still missing. -/
  | hole

/-- The shape of an expression: its operators and kinds, without the numbers. -/
inductive Descriptor where
  | hole
  | constant (kind : Kind)
  | var (name : String) (kind : Kind)
  | poly (kind : Kind)
  | unary (op : UnaryOp) (kind : Kind) (operand : Descriptor)
  | binary (op : BinaryOp) (kind : Kind) (left right : Descriptor)
deriving DecidableEq

def Descriptor.kind : Descriptor → Kind
  | hole => default
  | constant kind => kind
  | var _ kind => kind
  | poly kind => kind
  | unary _ kind _ => kind
  | binary _ kind _ _ => kind

namespace Expr

/-- The constant zero. -/
def zero (k : Kind) : Expr := constant (Value.zero k)

/-- The constant one. -/
def one (k : Kind) : Expr := constant (Value.one k)

/-- The kind of the values of an expression. -/
def kind : Expr → Kind
  | constant value => value.kind
  | var _ kind => kind
  | poly p => p.kind
  | unary _ operand => operand.kind
  | binary _ left right => left.kind.combine right.kind
  | hole => default

/-- The shape of an expression. -/
def descriptor : Expr → Descriptor
  | constant value => .constant value.kind
  | var name kind => .var name kind
  | poly p => .poly p.kind
  | unary op operand =>
    let d := operand.descriptor
    .unary op d.kind d
  | binary op left right =>
    let d := left.descriptor
    let e := right.descriptor
    .binary op (d.kind.combine e.kind) d e
  | hole => .hole

/-- Whether all leaves are constants. -/
def isConstant : Expr → Bool
  | constant _ => true
  | unary _ operand => operand.isConstant
  | binary _ left right => left.isConstant && right.isConstant
  | _ => false

/-- Whether no operand is missing. -/
def isResolved : Expr → Bool
  | hole => false
  | unary _ operand => operand.isResolved
  | binary _ left right => left.isResolved && right.isResolved
  | _ => true

/-- The number, if the expression is a constant. -/
def constant? : Expr → Option Value
  | constant value => some value
  | _ => none

/-! ## Pending operators -/

/-- The operator of a node all of whose operands are missing. -/
def pendingOperator? : Expr → Option Operator
  | unary op hole => some (.unary op)
  | binary op hole hole => some (.binary op)
  | _ => none

/-- The node of an operator without operands. -/
def pending : Operator → Expr
  | .unary op => unary op hole
  | .binary op => binary op hole hole

/-- The node of an operator with the first operands of a list, if there are enough. -/
def complete? : Operator → List Expr → Option Expr
  | .unary op, operand :: _ => some (unary op operand)
  | .binary op, left :: right :: _ => some (binary op left right)
  | _, _ => none

/-! ## Equality -/

/-- Whether two trees agree node for node. Constants agree if they are equal or, where `nanEqual`,
both NaN of one kind. -/
def sameTree (nanEqual : Bool) : Expr → Expr → Bool
  | constant v, constant w =>
    v == w || (nanEqual && v.kind == w.kind && v.isNaN && w.isNaN)
  | var a j, var b k => a == b && j == k
  | poly p, poly q => p == q
  | hole, hole => true
  | unary f x, unary g y => f == g && sameTree nanEqual x y
  | binary f a b, binary g c d => f == g && sameTree nanEqual a c && sameTree nanEqual b d
  | _, _ => false

instance : BEq Expr := ⟨sameTree false⟩

/-- Equality that takes a NaN constant for itself. -/
def isIdentical (e f : Expr) : Bool :=
  sameTree true e f

end Expr

end Formula
