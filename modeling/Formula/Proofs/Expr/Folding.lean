import Formula.Proofs.Expr.Basic
import Formula.Proofs.Expr.Overflow

/-!
# Folding

A pass of simplification never evaluates more than one node. It replaces an operator by its value once all
operands have become constants, and does so at the zero of the kind of that node. This adds up to the
value of the whole tree: an expression without a variable has one value for all points, and a pass leaves
a constant with just this value (`exists_value`), whatever kinds, infinities and NaN are mixed in it. The
only operators that stand in the way are derivatives and integrals, which have no value
(`exists_unsupported`).

A power whose exponent overflows ends both evaluation and the pass. Over a tree without derivatives and
integrals they end at the same powers (`passFits_eq_evaluateFits`), which are those of the tree that do not
fit (`evaluateFits_iff_powersFit`).
-/

namespace Formula

/-- The operators without a value: derivatives and integrals. -/
def Operator.IsSymbolic (op : Operator) : Prop :=
  op ∈ [.binary .nthDerivative, .binary .nthIntegral]

instance : DecidablePred Operator.IsSymbolic :=
  fun op => inferInstanceAs (Decidable (op ∈ _))

namespace BinaryOp

variable {op : BinaryOp}

theorem exists_evaluate?_eq_some (hop : ¬ (Operator.binary op).IsSymbolic) (v w : Value) :
    ∃ r, op.evaluate? v w = some r := by
  cases op with
  | nthDerivative | nthIntegral => simp [Operator.IsSymbolic] at hop
  | _ => exact ⟨_, rfl⟩

theorem evaluate?_eq_none (hop : (Operator.binary op).IsSymbolic) (v w : Value) :
    op.evaluate? v w = none := by
  cases op with
  | nthDerivative | nthIntegral => rfl
  | _ => simp [Operator.IsSymbolic] at hop

end BinaryOp

namespace Expr

variable {a b e : Expr} {op : BinaryOp} {v w r : Value}

/-! ## Trees of constants -/

/-- Without derivatives and integrals, a tree of constants has one value, and a pass finds it. -/
theorem exists_value (he : e.isConstant = true) (hop : ∀ op ∈ e.operators, ¬ op.IsSymbolic) :
    ∃ v, (∀ x, e.evaluate x = .ok v) ∧ e.simplified = constant v := by
  induction e with
  | constant v => exact ⟨v, fun _ => rfl, rfl⟩
  | unary op a ih =>
    obtain ⟨-, hop⟩ := List.forall_mem_cons.1 hop
    obtain ⟨v, hv, hs⟩ := ih he hop
    exact ⟨op.apply v, fun x => evaluate_unary_of (hv x), simplified_unary_of_constant op hs⟩
  | binary op a b iha ihb =>
    obtain ⟨ha, hb⟩ := Bool.and_eq_true_iff.1 he
    obtain ⟨hop, hops⟩ := List.forall_mem_cons.1 hop
    obtain ⟨hopa, hopb⟩ := List.forall_mem_append.1 hops
    obtain ⟨v, hv, hsa⟩ := iha ha hopa
    obtain ⟨w, hw, hsb⟩ := ihb hb hopb
    obtain ⟨r, hr⟩ := BinaryOp.exists_evaluate?_eq_some hop v w
    exact ⟨r, fun x => evaluate_binary_of (hv x) (hw x) hr,
      simplified_binary_of_constants hsa hsb hr⟩
  | _ => cases he

/-- A tree of constants with a derivative or an integral has no value, as the first of these has none. -/
theorem exists_unsupported (he : e.isConstant = true) (hop : ∃ op ∈ e.operators, op.IsSymbolic) :
    ∃ op, (Operator.binary op).IsSymbolic ∧ .binary op ∈ e.operators ∧
      ∀ x, e.evaluate x = .error (.unsupported op) := by
  induction e with
  | unary op a ih =>
    have hopa : ∃ op ∈ a.operators, op.IsSymbolic := by
      simpa [operators, Operator.IsSymbolic] using hop
    obtain ⟨f, hf, hmem, herr⟩ := ih he hopa
    refine ⟨f, hf, List.mem_cons_of_mem _ hmem, fun x => ?_⟩
    rw [evaluate, herr]
  | binary op a b iha ihb =>
    obtain ⟨ha, hb⟩ := Bool.and_eq_true_iff.1 he
    by_cases hopa : ∃ op ∈ a.operators, op.IsSymbolic
    · obtain ⟨f, hf, hmem, herr⟩ := iha ha hopa
      refine ⟨f, hf, List.mem_cons_of_mem _ (List.mem_append_left _ hmem), fun x => ?_⟩
      rw [evaluate, herr]
    -- the left operand has a value, so that the right one and then the operator decide
    obtain ⟨v, hv, -⟩ := exists_value ha (by simpa using hopa)
    by_cases hopb : ∃ op ∈ b.operators, op.IsSymbolic
    · obtain ⟨f, hf, hmem, herr⟩ := ihb hb hopb
      refine ⟨f, hf, List.mem_cons_of_mem _ (List.mem_append_right _ hmem), fun x => ?_⟩
      simp only [evaluate, hv, herr]
    obtain ⟨w, hw, -⟩ := exists_value hb (by simpa using hopb)
    have hself : (Operator.binary op).IsSymbolic := by
      obtain ⟨f, hmem, hf⟩ := hop
      rcases List.mem_cons.1 hmem with rfl | hmem
      · exact hf
      · rcases List.mem_append.1 hmem with hmem | hmem
        · exact absurd ⟨f, hmem, hf⟩ hopa
        · exact absurd ⟨f, hmem, hf⟩ hopb
    refine ⟨op, hself, List.mem_cons_self, fun x => ?_⟩
    simp only [evaluate, hv, hw, BinaryOp.evaluate?_eq_none hself]
  | constant v => simp [operators] at hop
  | _ => cases he

/-! ## Powers that overflow -/

/-- The powers in a tree of constants can all be taken. -/
def PowersFit (e : Expr) : Prop :=
  ∀ a b v w, binary .power a b ∈ e.subexpressions → (∀ x, a.evaluate x = .ok v) →
    (∀ x, b.evaluate x = .ok w) → v.powFits w = true

theorem PowersFit.operand {op : UnaryOp} (h : PowersFit (unary op a)) : PowersFit a :=
  fun _ _ _ _ hmem => h _ _ _ _ (List.mem_cons_of_mem _ hmem)

theorem PowersFit.left (h : PowersFit (binary op a b)) : PowersFit a :=
  fun _ _ _ _ hmem => h _ _ _ _ (List.mem_cons_of_mem _ (List.mem_append_left _ hmem))

theorem PowersFit.right (h : PowersFit (binary op a b)) : PowersFit b :=
  fun _ _ _ _ hmem => h _ _ _ _ (List.mem_cons_of_mem _ (List.mem_append_right _ hmem))

theorem PowersFit.fits (h : PowersFit (binary op a b)) (hv : ∀ x, a.evaluate x = .ok v)
    (hw : ∀ x, b.evaluate x = .ok w) : op.fits v w = true := by
  cases op with
  | power => exact h a b v w List.mem_cons_self hv hw
  | _ => rfl

/-- The value at one point is the value at all. -/
theorem evaluate_eq_ok (he : e.isConstant = true) {x : Value} (h : e.evaluate x = .ok v) :
    ∀ y, e.evaluate y = .ok v :=
  fun y => (evaluate_eq_of_isConstant he y x).trans h

theorem PowersFit.evaluateFits (h : PowersFit e) (he : e.isConstant = true) (x : Value) :
    e.evaluateFits x = true := by
  induction e with
  | constant v => rfl
  | unary op a ih => exact ih h.operand he
  | binary op a b iha ihb =>
    obtain ⟨ha, hb⟩ := Bool.and_eq_true_iff.1 he
    refine evaluateFits_binary (iha h.left ha) (ihb h.right hb) fun v w hv hw => ?_
    exact h.fits (evaluate_eq_ok ha hv) (evaluate_eq_ok hb hw)
  | _ => cases he

/-- The powers that do not fit are met at all points or at none. -/
theorem evaluateFits_eq_of_isConstant (he : e.isConstant = true) (x y : Value) :
    e.evaluateFits x = e.evaluateFits y := by
  induction e with
  | constant v => rfl
  | unary op a ih => exact ih he
  | binary op a b iha ihb =>
    obtain ⟨ha, hb⟩ := Bool.and_eq_true_iff.1 he
    simp only [evaluateFits, iha ha, ihb hb, evaluate_eq_of_isConstant ha x y,
      evaluate_eq_of_isConstant hb x y]
  | _ => cases he

/-- If both operands have values, both are evaluated and the operator is applied. -/
theorem evaluateFits_of_values {x : Value} (hv : a.evaluate x = .ok v) (hw : b.evaluate x = .ok w) :
    (binary op a b).evaluateFits x = (a.evaluateFits x && b.evaluateFits x && op.fits v w) := by
  simp only [evaluateFits, hv, hw, Bool.and_assoc]

theorem evaluateFits_iff_powersFit (he : e.isConstant = true)
    (hop : ∀ op ∈ e.operators, ¬ op.IsSymbolic) (x : Value) :
    e.evaluateFits x = true ↔ PowersFit e := by
  refine ⟨fun hfits => ?_, fun h => h.evaluateFits he x⟩
  induction e with
  | constant v =>
    intro a b v w hmem
    cases List.mem_singleton.1 hmem
  | unary op a ih =>
    intro c d v w hmem
    obtain ⟨-, hop⟩ := List.forall_mem_cons.1 hop
    rcases List.mem_cons.1 hmem with hself | hmem
    · cases hself
    · exact ih he hop hfits c d v w hmem
  | binary op a b iha ihb =>
    obtain ⟨ha, hb⟩ := Bool.and_eq_true_iff.1 he
    obtain ⟨-, hops⟩ := List.forall_mem_cons.1 hop
    obtain ⟨hopa, hopb⟩ := List.forall_mem_append.1 hops
    obtain ⟨v, hv, -⟩ := exists_value ha hopa
    obtain ⟨w, hw, -⟩ := exists_value hb hopb
    rw [evaluateFits_of_values (hv x) (hw x), Bool.and_eq_true, Bool.and_eq_true] at hfits
    intro c d v' w' hmem hv' hw'
    rcases List.mem_cons.1 hmem with hself | hmem
    · cases hself
      cases (hv x).symm.trans (hv' x)
      cases (hw x).symm.trans (hw' x)
      exact hfits.2
    · rcases List.mem_append.1 hmem with hmem | hmem
      · exact iha ha hopa hfits.1.1 c d v' w' hmem hv' hw'
      · exact ihb hb hopb hfits.1.2 c d v' w' hmem hv' hw'
  | _ => cases he

/-- Folding meets the powers that evaluation meets. -/
theorem passFits_eq_evaluateFits (he : e.isConstant = true)
    (hop : ∀ op ∈ e.operators, ¬ op.IsSymbolic) (x : Value) : e.passFits = e.evaluateFits x := by
  induction e with
  | constant v => rfl
  | unary op a ih =>
    obtain ⟨-, hop⟩ := List.forall_mem_cons.1 hop
    obtain ⟨v, -, hs⟩ := exists_value (e := a) he hop
    have hnode : unaryFits op (constant v) = true := by cases op <;> rfl
    rw [passFits, hs, hnode, Bool.and_true, ih he hop, evaluateFits]
  | binary op a b iha ihb =>
    obtain ⟨ha, hb⟩ := Bool.and_eq_true_iff.1 he
    obtain ⟨-, hops⟩ := List.forall_mem_cons.1 hop
    obtain ⟨hopa, hopb⟩ := List.forall_mem_append.1 hops
    obtain ⟨v, hv, hsa⟩ := exists_value ha hopa
    obtain ⟨w, hw, hsb⟩ := exists_value hb hopb
    rw [passFits, hsa, hsb, iha ha hopa, ihb hb hopb, evaluateFits_of_values (hv x) (hw x)]
    rfl
  | _ => cases he

/-- Folding from the leaves up is evaluation. A tree of constants without derivatives and integrals has
one and the same value at all points of all kinds, and one pass replaces the tree by this value, provided
that its powers fit; if one does not, both overflow. If there is a derivative or an integral in the tree,
it has no value at any point: the first of these is the reason, unless a power overflows before. -/
theorem folding_is_evaluation (he : e.isConstant = true) :
    ((∀ op ∈ e.operators, ¬ op.IsSymbolic) →
      (PowersFit e → ∃ v, (∀ x, e.evaluate? x = some (.ok v)) ∧ e.simplified? = some (constant v)) ∧
      (¬ PowersFit e → (∀ x, e.evaluate? x = none) ∧ e.simplified? = none)) ∧
    ((∃ op ∈ e.operators, op.IsSymbolic) →
      ∃ op, (Operator.binary op).IsSymbolic ∧ .binary op ∈ e.operators ∧
        ((∀ x, e.evaluate? x = some (.error (.unsupported op))) ∨
          ¬ PowersFit e ∧ ∀ x, e.evaluate? x = none)) := by
  refine ⟨fun hop => ⟨fun hfits => ?_, fun hfits => ?_⟩, fun hop => ?_⟩
  · obtain ⟨v, hv, hs⟩ := exists_value he hop
    have hpass := (passFits_eq_evaluateFits he hop v).trans (hfits.evaluateFits he v)
    refine ⟨v, fun x => ?_, simplified?_eq_some.2 ⟨hpass, hs⟩⟩
    rw [evaluate?, if_pos (hfits.evaluateFits he x), hv]
  · have hnone (x : Value) : ¬ e.evaluateFits x = true :=
      fun h => hfits ((evaluateFits_iff_powersFit he hop x).1 h)
    refine ⟨fun x => if_neg (hnone x), if_neg ?_⟩
    rw [passFits_eq_evaluateFits he hop (.zero .double)]
    exact hnone _
  · obtain ⟨op, hsym, hmem, herr⟩ := exists_unsupported he hop
    refine ⟨op, hsym, hmem, ?_⟩
    by_cases hfits : e.evaluateFits (.zero .double) = true
    · left
      intro x
      rw [evaluate?, evaluateFits_eq_of_isConstant he x (.zero .double), if_pos hfits, herr]
    · right
      refine ⟨fun h => hfits (h.evaluateFits he _), fun x => ?_⟩
      rw [evaluate?, evaluateFits_eq_of_isConstant he x (.zero .double), if_neg hfits]

/-- NaN to the power of zero is one, so that infinity is left; and this value does not help an integral
behind it. -/
theorem folding_is_evaluation_of_sentinels :
    let e := binary .quotient (constant (.fraction (.infinite true)))
      (binary .power (constant (.fraction .nan)) (constant (.fraction .zero)))
    let f := binary .sum (binary .product e (constant (.single 2)))
      (unary .abs (binary .nthIntegral e e))
    e.simplified? = some (constant (.fraction (.infinite true))) ∧
      (∀ x, e.evaluate? x = some (.ok (.fraction (.infinite true)))) ∧
      ∀ x, f.evaluate? x = some (.error (.unsupported .nthIntegral)) := by
  intro e f
  obtain ⟨hfits, -⟩ := (folding_is_evaluation (e := e) rfl).1 (by decide)
  have hpowers : PowersFit e :=
    (evaluateFits_iff_powersFit (e := e) rfl (by decide) (.zero .double)).1
      (by with_unfolding_all rfl)
  obtain ⟨v, hv, hs⟩ := hfits hpowers
  obtain ⟨op, hop, hmem, herr⟩ := (folding_is_evaluation (e := f) rfl).2 (by decide)
  have hvalue : e.evaluate? (Value.zero .double) = some (.ok (.fraction (.infinite true))) := by
    with_unfolding_all rfl
  cases (hv _).symm.trans hvalue
  have hintegral : f.evaluate? (Value.zero .double) = some (.error (.unsupported .nthIntegral)) := by
    with_unfolding_all rfl
  rcases herr with herr | ⟨-, hnone⟩
  · cases (herr _).symm.trans hintegral
    exact ⟨hs, hv, herr⟩
  · cases (hnone _).symm.trans hintegral

/-- The power of `3/2` to the exponent `-2 ^ 63` overflows, so that it has no value. -/
theorem folding_overflows_at_least_exponent :
    let e := binary .power (constant (.fraction (.finite false 3 2)))
      (constant (.fraction (.finite true Fraction.wordBound 1)))
    e.isConstant = true ∧ (∀ op ∈ e.operators, ¬ op.IsSymbolic) ∧
      (∀ x, e.evaluate? x = none) ∧ e.simplified? = none :=
  ⟨rfl, by decide, fun _ => rfl, rfl⟩

end Expr

end Formula
