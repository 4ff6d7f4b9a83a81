import Formula.Expr.Basic

/-!
# The text of expressions

An operand is put in parentheses when the operator around it binds more strongly than the operand
holds together.
-/

namespace Formula.Expr

/-- How strongly the text of an expression holds together. -/
def strength : Expr → Nat
  | constant value => if value.isNegative then 3 else 6
  | poly p => if 1 < p.termCount then 1 else 3
  | unary .negate _ => 3
  | unary .factorial _ => 5
  | binary .sum _ _ => 1
  | binary .difference _ _ => 1
  | binary .product _ _ => 2
  | binary .quotient _ _ => 2
  | binary .power _ _ => 4
  | _ => 6

/-- The text in parentheses, unless `strength` reaches `least`. -/
def enclose (least strength : Nat) (text : String) : String :=
  if strength < least then "(" ++ text ++ ")" else text

/-- The text of an expression. -/
def text : Expr → String
  | constant value => value.text
  | var name _ => name
  | poly p => p.text
  | hole => "_"
  | unary op operand =>
    match op with
    | .negate => "-" ++ enclose 4 operand.strength operand.text
    | .factorial => enclose 6 operand.strength operand.text ++ "!"
    | op => op.keyword ++ "(" ++ operand.text ++ ")"
  | binary op left right =>
    match op with
    | .sum | .difference =>
      left.text ++ " " ++ op.keyword ++ " " ++ enclose 2 right.strength right.text
    | .product | .quotient =>
      enclose 2 left.strength left.text ++ " " ++ op.keyword ++ " " ++
        enclose 3 right.strength right.text
    | .power => enclose 5 left.strength left.text ++ "^" ++ enclose 5 right.strength right.text
    | op => op.keyword ++ "(" ++ left.text ++ ", " ++ right.text ++ ")"

end Formula.Expr
