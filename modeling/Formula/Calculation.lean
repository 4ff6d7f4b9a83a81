import Formula.Expr.Simplify
import Formula.Parser

/-!
# Calculations

What can be asked of the text of an expression in `x`: its simplified form, its value at a point and
the range of its values. There is no answer where the program ends because an operation overflows.
-/

namespace Formula

/-- The expression of a text in the variable `x`. -/
def parse (text : String) (exact : Bool) : Except ParseError Expr :=
  Parser.parse { exact } text.toList

/-- The text of the simplified expression. -/
def interpret (text : String) (exact : Bool) : Option (Except CalcError String) :=
  match parse text exact with
  | .error e => some (.error (.parse e))
  | .ok e => e.fixedPoint?.map fun fixed => .ok fixed.text

/-- The value where the variable is `x`, taken in the kind of the literals. -/
def evaluateAt (text : String) (exact : Bool) (x : Float) : Option (Except CalcError Value) :=
  match parse text exact with
  | .error e => some (.error (.parse e))
  | .ok e => (e.evaluate? (Value.ofDouble (Parser.kind { exact }) x)).map (·.mapError .eval)

/-- The range of the simplified expression. -/
def boundsOf (text : String) (exact : Bool) : Option (Except CalcError Bounds) :=
  match parse text exact with
  | .error e => some (.error (.parse e))
  | .ok e => (e.fixedPoint?.bind Expr.bounds?).map .ok

/-- Everything that happens when a text is read and simplified: the nodes put together, the passes
made, and the simplified expression or the error. -/
def trace (p : Parser) (text : List Char) : Option (List String × Except ParseError Expr) :=
  let parsed := p.parseTraced text
  let built := parsed.built.map fun node => "resolved " ++ node.text
  match parsed.outcome with
  | .error e => some (built, .error e)
  | .ok e => e.simplification?.map fun s => (built ++ s.report e, .ok s.result)

end Formula
