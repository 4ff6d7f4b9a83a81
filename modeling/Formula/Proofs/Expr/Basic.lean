import Formula.Expr.Evaluate
import Formula.Proofs.Fraction.Factorial
import Formula.Proofs.Laurent.Value

/-!
# Expressions over fractions

The parts of an expression, and what is known of its values when all its numbers are well-formed
fractions: every value is a well-formed fraction again (`evaluate_overFractions`), whatever the
operators and the point.
-/

namespace Formula

/-! ## Operators on fractions -/

namespace UnaryOp

theorem apply_abs (f : Fraction) : abs.apply (.fraction f) = .fraction f.abs := rfl

theorem apply_negate (f : Fraction) : negate.apply (.fraction f) = .fraction (-f) := rfl

theorem apply_factorial (f : Fraction) :
    factorial.apply (.fraction f) = .fraction (Scalar.factorial f) := rfl

theorem apply_fraction (op : UnaryOp) (f : Fraction) :
    ∃ g : Fraction, op.apply (.fraction f) = .fraction g ∧ g.WellFormed := by
  cases op with
  | abs => exact ⟨_, apply_abs f, Fraction.wellFormed_abs f⟩
  | negate => exact ⟨_, apply_negate f, Fraction.wellFormed_neg f⟩
  | factorial => exact ⟨_, apply_factorial f, Fraction.wellFormed_factorial f⟩
  | sqrt => exact ⟨_, rfl, Fraction.wellFormed_ofDouble _⟩
  | ln => exact ⟨_, rfl, Fraction.wellFormed_ofDouble _⟩
  | log2 => exact ⟨_, rfl, Fraction.wellFormed_ofDouble _⟩
  | log10 => exact ⟨_, rfl, Fraction.wellFormed_ofDouble _⟩

end UnaryOp

namespace BinaryOp

variable (f g : Fraction)

theorem evaluate?_sum :
    sum.evaluate? (.fraction f) (.fraction g) = some (.fraction (f + g)) := rfl

theorem evaluate?_difference :
    difference.evaluate? (.fraction f) (.fraction g) = some (.fraction (f - g)) := rfl

theorem evaluate?_product :
    product.evaluate? (.fraction f) (.fraction g) = some (.fraction (f * g)) := rfl

theorem evaluate?_quotient :
    quotient.evaluate? (.fraction f) (.fraction g) = some (.fraction (f / g)) := rfl

theorem evaluate?_power :
    power.evaluate? (.fraction f) (.fraction g) = some (.fraction (f.pow g)) := rfl

theorem evaluate?_modulo :
    modulo.evaluate? (.fraction f) (.fraction g) = some (.fraction (f.modulo g)) := rfl

theorem evaluate?_fraction {op : BinaryOp} {f g : Fraction} {v : Value} (hf : f.WellFormed)
    (hg : g.WellFormed) (h : op.evaluate? (.fraction f) (.fraction g) = some v) :
    ∃ r : Fraction, v = .fraction r ∧ r.WellFormed := by
  cases op with
  | sum =>
    cases (evaluate?_sum f g).symm.trans h
    exact ⟨_, rfl, Fraction.wellFormed_add _ _ hf hg⟩
  | difference =>
    cases (evaluate?_difference f g).symm.trans h
    exact ⟨_, rfl, Fraction.wellFormed_sub hf⟩
  | product =>
    cases (evaluate?_product f g).symm.trans h
    exact ⟨_, rfl, Fraction.wellFormed_mul _ _⟩
  | quotient =>
    cases (evaluate?_quotient f g).symm.trans h
    exact ⟨_, rfl, Fraction.wellFormed_div _ _⟩
  | power =>
    cases (evaluate?_power f g).symm.trans h
    exact ⟨_, rfl, Fraction.wellFormed_pow _ _⟩
  | logBase =>
    cases h
    exact ⟨_, rfl, Fraction.wellFormed_ofDouble _⟩
  | modulo =>
    cases (evaluate?_modulo f g).symm.trans h
    exact ⟨_, rfl, Fraction.wellFormed_modulo hf⟩
  | nthDerivative => cases h
  | nthIntegral => cases h

end BinaryOp

theorem Poly.evaluate_fraction (p : Laurent Fraction) (x : Fraction) :
    (Poly.fraction p).evaluate (.fraction x) = .ok (.fraction (p.eval x)) := rfl

namespace Expr

/-! ## Parts -/

/-- The expression and all the expressions below it. -/
def subexpressions : Expr → List Expr
  | unary op operand => unary op operand :: operand.subexpressions
  | binary op left right => binary op left right :: (left.subexpressions ++ right.subexpressions)
  | e => [e]

/-- The operators of all nodes. -/
def operators : Expr → List Operator
  | unary op operand => .unary op :: operand.operators
  | binary op left right => .binary op :: (left.operators ++ right.operators)
  | _ => []

/-- The leaves are of fraction kind and hold well-formed fractions. A missing operand is no leaf. -/
def OverFractions : Expr → Prop
  | constant (.fraction f) => f.WellFormed
  | constant _ => False
  | var _ kind => kind = .fraction
  | poly (.fraction p) => p.WellFormed
  | poly _ => False
  | unary _ operand => operand.OverFractions
  | binary _ left right => left.OverFractions ∧ right.OverFractions
  | hole => True

instance : DecidablePred OverFractions
  | constant (.fraction f) => inferInstanceAs (Decidable f.WellFormed)
  | constant (.double _) => isFalse not_false
  | constant (.single _) => isFalse not_false
  | var _ kind => inferInstanceAs (Decidable (kind = .fraction))
  | poly (.fraction p) => inferInstanceAs (Decidable p.WellFormed)
  | poly (.double _) => isFalse not_false
  | poly (.single _) => isFalse not_false
  | unary _ operand => instDecidablePredOverFractions operand
  | binary _ left right =>
    have := instDecidablePredOverFractions left
    have := instDecidablePredOverFractions right
    inferInstanceAs (Decidable (_ ∧ _))
  | hole => isTrue trivial

/-! ## Equality -/

theorem beq_unary (op : UnaryOp) (x y : Expr) : (unary op x == unary op y) = (x == y) := by
  show (op == op && x == y) = _
  rw [beq_self_eq_true, Bool.true_and]

theorem beq_binary (op : BinaryOp) (a b x y : Expr) :
    (binary op a b == binary op x y) = (a == x && b == y) := by
  show (op == op && a == x && b == y) = _
  rw [beq_self_eq_true, Bool.true_and]

/-! ## Values -/

theorem evaluate_unary {op : UnaryOp} {a : Expr} {x v : Value}
    (h : (unary op a).evaluate x = .ok v) : ∃ u, a.evaluate x = .ok u ∧ op.apply u = v := by
  rw [evaluate] at h
  split at h
  · next u hu =>
    cases h
    exact ⟨u, hu, rfl⟩
  · cases h

theorem evaluate_binary {op : BinaryOp} {a b : Expr} {x v : Value}
    (h : (binary op a b).evaluate x = .ok v) :
    ∃ u w, a.evaluate x = .ok u ∧ b.evaluate x = .ok w ∧ op.evaluate? u w = some v := by
  rw [evaluate] at h
  split at h
  · cases h
  next u hu =>
    split at h
    · cases h
    next w hw =>
      split at h
      · next r hr =>
        cases h
        exact ⟨u, w, hu, hw, hr⟩
      · cases h

theorem evaluate_unary_of {op : UnaryOp} {a : Expr} {x u : Value} (ha : a.evaluate x = .ok u) :
    (unary op a).evaluate x = .ok (op.apply u) := by
  rw [evaluate, ha]

theorem evaluate_binary_of {op : BinaryOp} {a b : Expr} {x u w v : Value}
    (ha : a.evaluate x = .ok u) (hb : b.evaluate x = .ok w) (hv : op.evaluate? u w = some v) :
    (binary op a b).evaluate x = .ok v := by
  simp only [evaluate, ha, hb, hv]

/-- An expression over fractions has well-formed fractions for its values, and is of their kind. -/
theorem evaluate_overFractions {e : Expr} {x : Fraction} {v : Value} (he : e.OverFractions)
    (h : e.evaluate (.fraction x) = .ok v) :
    e.kind = .fraction ∧ ∃ f : Fraction, v = .fraction f ∧ f.WellFormed := by
  induction e generalizing v with
  | constant value =>
    cases h
    cases value with
    | fraction f => exact ⟨rfl, f, rfl, he⟩
    | double => exact he.elim
    | single => exact he.elim
  | var => cases h
  | hole => cases h
  | poly p =>
    cases p with
    | fraction p =>
      cases h
      exact ⟨rfl, _, rfl, p.wellFormed_eval x⟩
    | double => exact he.elim
    | single => exact he.elim
  | unary op a ih =>
    obtain ⟨u, hu, rfl⟩ := evaluate_unary h
    obtain ⟨hk, f, rfl, hf⟩ := ih he hu
    obtain ⟨g, hg, hgwf⟩ := op.apply_fraction f
    exact ⟨hk, g, hg, hgwf⟩
  | binary op a b iha ihb =>
    obtain ⟨u, w, hu, hw, hv⟩ := evaluate_binary h
    obtain ⟨hk, f, rfl, hf⟩ := iha he.1 hu
    obtain ⟨hk', g, rfl, hg⟩ := ihb he.2 hw
    refine ⟨?_, BinaryOp.evaluate?_fraction hf hg hv⟩
    rw [kind, hk, hk', Kind.combine_self]

/-- The value of an expression without a variable is the same at every point. -/
theorem evaluate_eq_of_isConstant {e : Expr} (h : e.isConstant = true) (x y : Value) :
    e.evaluate x = e.evaluate y := by
  induction e with
  | constant value => rfl
  | var => cases h
  | hole => cases h
  | poly p => cases h
  | unary op a ih => rw [evaluate, evaluate, ih h]
  | binary op a b iha ihb =>
    rw [isConstant, Bool.and_eq_true] at h
    rw [evaluate, evaluate, iha h.1, ihb h.2]

end Expr

end Formula
