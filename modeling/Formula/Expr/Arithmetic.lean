import Formula.Expr.Simplify

/-!
# Arithmetic on expressions

Each operation simplifies its operands once and joins them. The joined node is not simplified again,
so a full reduction takes another pass.

The operations whose names end in a question mark are those of the running program, which ends where
something overflows in a pass or in the joining.
-/

namespace Formula.Expr

def plus (e f : Expr) : Expr := sumNode e.simplified f.simplified
def minus (e f : Expr) : Expr := sumNode e.simplified (negateNode f.simplified)
def multiplied (e f : Expr) : Expr := productNode e.simplified f.simplified
def divided (e f : Expr) : Expr := quotientNode e.simplified f.simplified
def power (e f : Expr) : Expr := powerNode e.simplified f.simplified
def negated (e : Expr) : Expr := negateNode e.simplified
def abs (e : Expr) : Expr := absNode e.simplified

/-- An operator on an operand, applied without any rule of its own. -/
def applied (e : Expr) (op : UnaryOp) : Expr := unary op e.simplified

/-- An operator on two operands, applied without any rule of its own. -/
def joined (e : Expr) (op : BinaryOp) (f : Expr) : Expr := binary op e.simplified f.simplified

def sqrt (e : Expr) : Expr := e.applied .sqrt
def ln (e : Expr) : Expr := e.applied .ln
def log2 (e : Expr) : Expr := e.applied .log2
def log10 (e : Expr) : Expr := e.applied .log10
def factorial (e : Expr) : Expr := e.applied .factorial

/-- The logarithm of `e` to the base `base`. -/
def logBase (e base : Expr) : Expr := base.joined .logBase e
def modulo (e f : Expr) : Expr := e.joined .modulo f
def nthDerivative (e n : Expr) : Expr := e.joined .nthDerivative n
def nthIntegral (e n : Expr) : Expr := e.joined .nthIntegral n

instance : Add Expr := ⟨plus⟩
instance : Sub Expr := ⟨minus⟩
instance : Mul Expr := ⟨multiplied⟩
instance : Div Expr := ⟨divided⟩
instance : Neg Expr := ⟨negated⟩

/-! ## Unless something overflows -/

/-- Joins two simplified operands by a builder, as far as the passes and the builder come to an end. -/
def join? (fits : Expr → Expr → Bool) (node : Expr → Expr → Expr) (e f : Expr) : Option Expr :=
  e.simplified?.bind fun a => f.simplified?.bind fun b => if fits a b then some (node a b) else none

def plus? : Expr → Expr → Option Expr := join? (fun _ _ => true) sumNode
def minus? : Expr → Expr → Option Expr := join? (fun _ _ => true) fun a b => sumNode a (negateNode b)
def multiplied? : Expr → Expr → Option Expr := join? productFits productNode
def divided? : Expr → Expr → Option Expr := join? quotientFits quotientNode
def power? : Expr → Expr → Option Expr := join? powerFits powerNode
def joined? (e : Expr) (op : BinaryOp) (f : Expr) : Option Expr :=
  join? (fun _ _ => true) (binary op) e f

def negated? (e : Expr) : Option Expr := e.simplified?.map negateNode
def applied? (e : Expr) (op : UnaryOp) : Option Expr := e.simplified?.map (unary op)
def abs? (e : Expr) : Option Expr :=
  e.simplified?.bind fun a => if a.absFits then some (absNode a) else none

variable {e f r : Expr} {op : UnaryOp} {op' : BinaryOp}

/-- What comes of two operands is what the builder makes of them. -/
theorem join?_eq_some {fits : Expr → Expr → Bool} {node : Expr → Expr → Expr}
    (h : join? fits node e f = some r) : r = node e.simplified f.simplified := by
  obtain ⟨a, ha, h⟩ := Option.bind_eq_some_iff.1 h
  obtain ⟨b, hb, h⟩ := Option.bind_eq_some_iff.1 h
  obtain ⟨-, rfl⟩ := simplified?_eq_some.1 ha
  obtain ⟨-, rfl⟩ := simplified?_eq_some.1 hb
  split at h <;> cases h
  rfl

theorem map_simplified?_eq_some {node : Expr → Expr} (h : e.simplified?.map node = some r) :
    r = node e.simplified := by
  obtain ⟨a, ha, rfl⟩ := Option.map_eq_some_iff.1 h
  obtain ⟨-, rfl⟩ := simplified?_eq_some.1 ha
  rfl

/-- An operation of the running program that comes to an end has the result of the operation without a
question mark. -/
theorem operations_agree :
    (e.plus? f = some r → r = e + f) ∧ (e.minus? f = some r → r = e - f) ∧
    (e.multiplied? f = some r → r = e * f) ∧ (e.divided? f = some r → r = e / f) ∧
    (e.power? f = some r → r = e.power f) ∧ (e.joined? op' f = some r → r = e.joined op' f) ∧
    (e.negated? = some r → r = -e) ∧ (e.applied? op = some r → r = e.applied op) ∧
    (e.abs? = some r → r = e.abs) := by
  refine ⟨join?_eq_some, join?_eq_some, join?_eq_some, join?_eq_some, join?_eq_some, join?_eq_some,
    map_simplified?_eq_some, map_simplified?_eq_some, fun h => ?_⟩
  obtain ⟨a, ha, h⟩ := Option.bind_eq_some_iff.1 h
  obtain ⟨-, rfl⟩ := simplified?_eq_some.1 ha
  split at h <;> cases h
  rfl

end Formula.Expr
