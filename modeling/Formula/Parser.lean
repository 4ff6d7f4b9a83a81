import Formula.Assembly
import Formula.Decimal.Reader
import Formula.Text.LowerCase
import Formula.Token

/-!
# Reading expressions

A text is put in lower case, cut into tokens and assembled into a tree. Groups are read the same
way, one level deeper. The kind of the leaves is the only thing that depends on whether literals are
read exactly.
-/

namespace Formula

/-- The fraction a text stands for, or an error that names the text. -/
def Fraction.ofText (text : List Char) : Except ParseError Fraction :=
  match read? text with
  | some f => .ok f
  | none => .error (.invalidLiteral text)

/-- How texts are read. -/
structure Parser where
  /-- Whether literals are fractions instead of 64-bit numbers. -/
  exact : Bool := false
  /-- The name of the variable, in lower case. -/
  variableName : Option (List Char) := some ['x']
  /-- The deepest nesting allowed. -/
  maxDepth : Nat := 128

namespace Parser

/-- The parser with another variable, or with none. -/
def withVariable (p : Parser) (name : Option (List Char)) : Parser :=
  { p with variableName := name.map toLowerCase }

/-- The kind of the leaves. -/
def kind (p : Parser) : Kind :=
  if p.exact then .fraction else .double

/-- The 64-bit number a literal stands for. The terms of a quotient are rounded before they are
divided. -/
def readDouble? (literal : List Char) : Option Float :=
  match Digits.cut '/' literal with
  | some (numerator, denominator) =>
    match (Floating.read? numerator : Option Float),
        (Floating.read? denominator : Option Float) with
    | some n, some d => some (n / d)
    | _, _ => none
  | none => Floating.read? literal

/-- The value of a literal. -/
def readLiteral (p : Parser) (literal : List Char) : Except ParseError Value :=
  if p.exact then (Fraction.ofText literal).map .fraction
  else
    match readDouble? literal with
    | some x => .ok (.double x)
    | none => .error (.invalidLiteral literal)

/-- The entry of a token in the row that is assembled, given how groups are read. -/
def entry (p : Parser) (readGroup : List Char → Traced Expr) : Token → Traced Expr
  | .operator op => .ok (.pending op)
  | .variableName => .ok (.poly (.identity p.kind))
  | .literal text =>
    match p.readLiteral text with
    | .ok v => .ok (.constant v)
    | .error e => .error e
  | .group text => readGroup text

/-- The entries of tokens, in order, up to the first error. -/
def entries (p : Parser) (readGroup : List Char → Traced Expr) : List Token → Traced (List Expr)
  | [] => .ok []
  | token :: rest =>
    (p.entry readGroup token).bind fun e =>
    (p.entries readGroup rest).bind fun row => .ok (e :: row)

/-- Reads one level of a text, with as many levels left as the first number says. -/
def readLevel (p : Parser) : Nat → List Char → Traced Expr
  | 0, _ => .error (.tooDeep p.maxDepth)
  | room + 1, text =>
    match Token.ofText p.variableName text with
    | .error e => .error e
    | .ok [] => .error .emptyExpression
    | .ok tokens =>
      (p.entries (p.readLevel room) tokens).bind
        (Assembly.assembleWithin p.maxDepth (room + 1))

/-- The expression of a text, with the nodes that were built for it. -/
def parseTraced (p : Parser) (text : List Char) : Traced Expr :=
  p.readLevel (p.maxDepth + 1) (toLowerCase text)

/-- The expression of a text. -/
def parse (p : Parser) (text : List Char) : Except ParseError Expr :=
  (p.parseTraced text).outcome

end Parser

end Formula
