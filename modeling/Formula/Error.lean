import Formula.Operator
import Formula.Text.Quoted

/-!
# Errors

Why a text is not an expression, and why an expression has no value, each with its message.
-/

namespace Formula

/-- Why a text is not an expression. -/
inductive ParseError where
  /-- Nothing that is allowed starts at the remaining text. -/
  | unexpectedInput (remaining : List Char)
  /-- More than one keyword starts at the remaining text. -/
  | ambiguousKeyword (remaining : List Char) (keywords : List (List Char))
  | missingOperand (op : Operator)
  /-- More than one expression is left when all operators have been applied. -/
  | unresolvedStack (count : Nat)
  | invalidLiteral (literal : List Char)
  | emptyExpression
  | tooDeep (limit : Nat)
deriving DecidableEq

/-- Why an expression has no value. -/
inductive EvalError where
  | unboundVariable (name : String)
  | kindMismatch (expected found : Kind)
  /-- An operand is missing. -/
  | unresolved
  | unsupported (op : BinaryOp)
deriving DecidableEq

/-- What can go wrong with a calculation. -/
inductive CalcError where
  | parse (e : ParseError)
  | eval (e : EvalError)
deriving DecidableEq

/-- A natural number in messages. -/
def natText (n : Nat) : String :=
  String.ofList (Digits.text n)

def ParseError.message : ParseError → String
  | unexpectedInput remaining => "Unexpected input at: " ++ String.ofList remaining
  | ambiguousKeyword remaining keywords =>
    "Ambiguous keyword at " ++ String.ofList (quoted remaining) ++ ": matches " ++
      String.ofList (quotedList keywords)
  | missingOperand op => op.symbol ++ " operator missing operand"
  | unresolvedStack count => natText count ++ " expressions remain unresolved"
  | invalidLiteral literal => "Invalid numeric literal: " ++ String.ofList literal
  | emptyExpression => "Empty expression"
  | tooDeep limit => "Nesting deeper than " ++ natText limit ++ " levels"

def EvalError.message : EvalError → String
  | unboundVariable name => "Variable " ++ name ++ " has no value"
  | kindMismatch expected found =>
    "Cannot evaluate a " ++ expected.name ++ " expression at a " ++ found.name ++ " value"
  | unresolved => "Expression contains an unresolved operand"
  | unsupported op => op.keyword ++ " has no numeric evaluation"

def CalcError.message : CalcError → String
  | parse e => e.message
  | eval e => e.message

end Formula
