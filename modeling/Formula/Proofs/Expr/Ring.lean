import Formula.Proofs.Expr.Simplify
import Formula.Proofs.Fraction.Whole
import Formula.Proofs.Laurent.Ring

/-!
# Simplification decides equality in the Laurent polynomial ring

`Denotes e P` says that `e` is built from polynomials over fractions by the operations of a ring, and
that it stands for the Laurent polynomial `P`. One pass turns such an expression into a `RingForm`: the
reduced polynomial with the terms of `P`, or a zero constant if there are none. Zeros that come up on
the way are constants, and are folded or absorbed by the node builders. As equal ring forms are equal
Laurent polynomials, comparing two expressions after one pass decides whether they denote the same
(`simplified_is_ring_form_and_decides_equality`).
-/

namespace Formula.Expr

/-! ## Denotations -/

/-- The expression is built from polynomials by negation, sums, differences, products and powers with
a small positive exponent, and stands for the given Laurent polynomial. -/
inductive Denotes : Expr → LaurentPolynomial ℚ → Prop
  | poly {p : Laurent Fraction} (hp : p.Reduced) (hne : p.terms ≠ []) :
      Denotes (poly (.fraction p)) p.toRing
  | negate {a : Expr} {P : LaurentPolynomial ℚ} (ha : Denotes a P) :
      Denotes (unary .negate a) (-P)
  | sum {a b : Expr} {P Q : LaurentPolynomial ℚ} (ha : Denotes a P) (hb : Denotes b Q) :
      Denotes (binary .sum a b) (P + Q)
  | difference {a b : Expr} {P Q : LaurentPolynomial ℚ} (ha : Denotes a P) (hb : Denotes b Q) :
      Denotes (binary .difference a b) (P - Q)
  | product {a b : Expr} {P Q : LaurentPolynomial ℚ} (ha : Denotes a P) (hb : Denotes b Q) :
      Denotes (binary .product a b) (P * Q)
  | power {a : Expr} {P : LaurentPolynomial ℚ} {n : ℕ} (ha : Denotes a P) (hpos : 1 ≤ n)
      (hle : n ≤ 64) : Denotes (binary .power a (constant (.fraction (.finite false n 1)))) (P ^ n)

/-- What a pass makes of such an expression: a reduced polynomial with at least one term, or a
constant that is zero. -/
inductive RingForm : Expr → LaurentPolynomial ℚ → Prop
  | poly {p : Laurent Fraction} (hp : p.Reduced) (hne : p.terms ≠ []) :
      RingForm (poly (.fraction p)) p.toRing
  | zero {f : Fraction} (hf : f.WellFormed) (hv : f.value = .finite 0) :
      RingForm (constant (.fraction f)) 0

variable {e a b : Expr} {P Q : LaurentPolynomial ℚ}

namespace RingForm

theorem kind_eq (h : RingForm e P) : e.kind = .fraction := by
  cases h <;> rfl

theorem ne_zero_of_poly {p : Laurent Fraction} (hp : p.Reduced) (hne : p.terms ≠ []) :
    p.toRing ≠ 0 :=
  fun h => hne (hp.toRing_eq_zero_iff.1 h)

theorem of_ofPoly {p : Laurent Fraction} (hp : p.Reduced) :
    RingForm (ofPoly (.fraction p)) p.toRing := by
  unfold ofPoly
  split_ifs with hcount
  · have hnil : p.terms = [] := List.length_eq_zero_iff.1 hcount
    rw [hp.toRing_eq_zero_iff.2 hnil]
    exact .zero Fraction.wellFormed_zero Fraction.value_zero
  · refine .poly hp ?_
    intro hnil
    exact hcount (List.length_eq_zero_iff.2 hnil)

/-- Ring forms are equal if they stand for the same Laurent polynomial. -/
theorem beq_iff (ha : RingForm a P) (hb : RingForm b Q) : (a == b) = true ↔ P = Q := by
  cases ha with
  | @poly p hp hpne =>
    cases hb with
    | @poly q hq hqne => exact Laurent.beq_iff_toRing_eq hp hq
    | zero hg hgv => exact iff_of_false Bool.false_ne_true (ne_zero_of_poly hp hpne)
  | @zero f hf hfv =>
    cases hb with
    | @poly q hq hqne => exact iff_of_false Bool.false_ne_true (ne_zero_of_poly hq hqne).symm
    | @zero g hg hgv =>
      refine iff_of_true ?_ rfl
      have h : (f == g) = true := (Fraction.beq_iff hf hg).2 ⟨hfv.trans hgv.symm, by simp [hfv]⟩
      show (f == g || _) = true
      rw [h, Bool.true_or]

/-! ## Zeros -/

theorem isZeroConstant {f : Fraction} (hf : f.WellFormed) (hv : f.value = .finite 0) :
    (constant (.fraction f)).isZeroConstant = true :=
  (Fraction.isZero_iff hf).2 hv

/-- A ring form that is a constant has the exact value zero. -/
theorem exact_of_constant? (h : RingForm e P) (hc : e.constant?.isSome = true) :
    P = 0 ∧ Exact .zero e 0 := by
  cases h with
  | poly => cases hc
  | zero hf hv => exact ⟨rfl, .constant hf hv⟩

/-- A constant expression of value zero is folded to a zero. -/
theorem of_folded (h : Exact .zero e 0) (hconst : e.isConstant = true) : RingForm e.folded 0 := by
  obtain ⟨f, hf, hwf, hv⟩ := h.evaluate
  rw [folded, evaluate_eq_of_isConstant hconst _ (.fraction .zero), hf]
  exact .zero hwf hv

/-- Two ring forms that are constants are zeros, and so is what a node with the exact value zero is
folded to. -/
theorem of_binary_folded {op : BinaryOp} (ha : RingForm a P) (hb : RingForm b Q)
    (hconst : (a.constant?.isSome && b.constant?.isSome) = true)
    (h : Exact .zero a 0 → Exact .zero b 0 → Exact .zero (binary op a b) 0) :
    P = 0 ∧ Q = 0 ∧ RingForm (binary op a b).folded 0 := by
  rw [Bool.and_eq_true] at hconst
  obtain ⟨hP, hea⟩ := ha.exact_of_constant? hconst.1
  obtain ⟨hQ, heb⟩ := hb.exact_of_constant? hconst.2
  refine ⟨hP, hQ, of_folded (h hea heb) ?_⟩
  rw [isConstant, isConstant_of_constant? hconst.1, isConstant_of_constant? hconst.2, Bool.and_true]

/-! ## Builders -/

theorem negateNode (h : RingForm a P) : RingForm (negateNode a) (-P) := by
  cases h with
  | @poly p hp hne =>
    rw [← Laurent.toRing_negated hp.ordered]
    refine .poly hp.negated ?_
    simpa [Laurent.negated] using hne
  | @zero f hf hv =>
    rw [neg_zero]
    refine .zero (Fraction.wellFormed_neg f) ?_
    rw [Fraction.value_neg hf, hv, Extended.neg_finite, neg_zero]

theorem sumNode (ha : RingForm a P) (hb : RingForm b Q) : RingForm (sumNode a b) (P + Q) := by
  have hkind : a.kind = b.kind := ha.kind_eq.trans hb.kind_eq.symm
  rw [Expr.sumNode, if_pos hkind]
  cases hb with
  | zero hf hv => rwa [if_pos (isZeroConstant hf hv), add_zero]
  | @poly q hq hqne =>
    rw [if_neg (by exact Bool.false_ne_true)]
    cases ha with
    | zero hf hv =>
      rw [if_pos (isZeroConstant hf hv), zero_add]
      exact .poly hq hqne
    | @poly p hp hpne =>
      rw [if_neg (by exact Bool.false_ne_true), ← Laurent.toRing_added hp.ordered hq.ordered]
      exact of_ofPoly (Laurent.reduced_added hp.ordered hq.ordered)

theorem productNode (ha : RingForm a P) (hb : RingForm b Q) :
    RingForm (productNode a b) (P * Q) := by
  have hkind : a.kind = b.kind := ha.kind_eq.trans hb.kind_eq.symm
  have hzero : RingForm (Expr.zero a.kind) 0 := by
    rw [ha.kind_eq]
    exact .zero Fraction.wellFormed_zero Fraction.value_zero
  rw [Expr.productNode, if_pos hkind]
  cases hb with
  | zero hf hv => rwa [isZeroConstant hf hv, Bool.or_true, if_pos rfl, mul_zero]
  | @poly q hq hqne =>
    cases ha with
    | zero hf hv => rwa [isZeroConstant hf hv, Bool.true_or, if_pos rfl, zero_mul]
    | @poly p hp hpne =>
      rw [if_neg (by exact Bool.false_ne_true), if_neg (by exact Bool.false_ne_true),
        if_neg (by exact Bool.false_ne_true), ← Laurent.toRing_multiplied hp.ordered hq.ordered]
      exact of_ofPoly (Laurent.reduced_multiplied hp.ordered hq.ordered)

theorem exact_exponent (n : ℕ) :
    Exact .zero (constant (.fraction (.finite false n 1))) (n : ℤ) := by
  refine .constant ⟨one_ne_zero, fun _ => rfl⟩ ?_
  rw [Fraction.value_finite, Nat.cast_one, div_one]
  rfl

theorem powerNode {p : Laurent Fraction} {n : ℕ} (hp : p.Reduced) (hne : p.terms ≠ [])
    (hpos : 1 ≤ n) (hle : n ≤ 64) :
    RingForm (powerNode (.poly (.fraction p)) (constant (.fraction (.finite false n 1))))
      (p.toRing ^ n) := by
  have hkind : (Expr.poly (.fraction p)).kind = (Value.fraction (.finite false n 1)).kind := rfl
  rw [Expr.powerNode, if_pos hkind]
  split_ifs with hone hzero
  · have hn : ((n : ℤ) : ℚ) = 1 := (exact_exponent n).eq_one_of_isOneConstant hone
    obtain rfl : n = 1 := by exact_mod_cast hn
    rw [pow_one]
    exact .poly hp hne
  · have hn : ((n : ℤ) : ℚ) = 0 := (exact_exponent n).eq_zero_of_isZeroConstant hzero
    have : n = 0 := by exact_mod_cast hn
    omega
  · have hpower : polyPower? (.poly (.fraction p)) (.fraction (.finite false n 1)) =
        some (.fraction (p.powNat n)) := by
      unfold polyPower?
      rw [Value.toWhole?_natCast (hle.trans (by decide)), ← Laurent.power_natCast]
      exact if_pos ⟨hle, .inl (Int.natCast_nonneg n)⟩
    rw [hpower, ← Laurent.toRing_powNat hp.ordered]
    exact of_ofPoly (Laurent.reduced_powNat hp.ordered n)

end RingForm

/-! ## One pass -/

/-- One pass brings what stands for a Laurent polynomial to its ring form. -/
theorem Denotes.ringForm (h : Denotes e P) : RingForm e.simplified P := by
  induction h with
  | poly hp hne => exact .poly hp hne
  | @negate a P _ ih =>
    rw [simplified, unaryNode]
    split_ifs with hconst
    · obtain ⟨rfl, hea⟩ := ih.exact_of_constant? hconst
      rw [neg_zero]
      have hneg : Exact .zero (unary .negate a.simplified) 0 := by simpa using Exact.negate hea
      exact .of_folded hneg (isConstant_of_constant? (e := a.simplified) hconst)
    · exact ih.negateNode
  | @sum a b P Q _ _ iha ihb =>
    rw [simplified, binaryNode]
    split_ifs with hconst
    · obtain ⟨rfl, rfl, hform⟩ := iha.of_binary_folded ihb hconst fun ha hb => by
        simpa using Exact.sum ha hb
      rwa [add_zero]
    · exact iha.sumNode ihb
  | @difference a b P Q _ _ iha ihb =>
    rw [simplified, binaryNode]
    split_ifs with hconst
    · obtain ⟨rfl, rfl, hform⟩ := iha.of_binary_folded ihb hconst fun ha hb => by
        simpa using Exact.difference ha hb
      rwa [sub_zero]
    · rw [sub_eq_add_neg]
      exact iha.sumNode ihb.negateNode
  | @product a b P Q _ _ iha ihb =>
    rw [simplified, binaryNode]
    split_ifs with hconst
    · obtain ⟨rfl, rfl, hform⟩ := iha.of_binary_folded ihb hconst fun ha hb => by
        simpa using Exact.product ha hb
      rwa [mul_zero]
    · exact iha.productNode ihb
  | @power a P n _ hpos hle iha =>
    show RingForm (binaryNode .power a.simplified (constant _)) _
    generalize a.simplified = base at iha
    cases iha with
    | @poly p hp hne => exact .powerNode hp hne hpos hle
    | @zero f hf hv =>
      -- zero to a positive power is folded
      have hn : |(n : ℤ)| ≤ 4096 := by
        rw [abs_of_nonneg (Int.natCast_nonneg n)]
        omega
      have hpow := Exact.power (.constant hf hv) (RingForm.exact_exponent n) hn
        (.inl (Int.natCast_nonneg n))
      rw [zpow_natCast, zero_pow (by omega)] at hpow
      rw [zero_pow (by omega)]
      exact .of_folded hpow rfl

/-- One pass turns an expression that stands for a Laurent polynomial into the reduced polynomial with
the same terms, or into a zero constant if the Laurent polynomial is zero. Two such expressions are
equal after one pass if and only if they stand for the same Laurent polynomial. -/
theorem simplified_is_ring_form_and_decides_equality (ha : Denotes a P) (hb : Denotes b Q) :
    ((∃ p : Laurent Fraction, a.simplified = poly (.fraction p) ∧ p.Reduced ∧ p.toRing = P ∧ P ≠ 0) ∨
      ∃ f : Fraction, a.simplified = constant (.fraction f) ∧ (f == .zero) = true ∧ P = 0) ∧
    (a.equivalent b = true ↔ P = Q) := by
  have hform := ha.ringForm
  refine ⟨?_, hform.beq_iff hb.ringForm⟩
  generalize a.simplified = e at hform
  cases hform with
  | @poly p hp hne => exact .inl ⟨p, rfl, hp, rfl, RingForm.ne_zero_of_poly hp hne⟩
  | @zero f hf hv => exact .inr ⟨f, rfl, RingForm.isZeroConstant hf hv, rfl⟩

/-- A zero comes up in `((x - x) + x ^ -1 / 2) ^ 3`, which stands for the same as a product of three
factors `x ^ -1 / 2`. -/
theorem cube_of_collapsed_sum_denotes_product :
    let x : Expr := poly (.fraction (.ofTerms [(1, .one)]))
    let half : Expr := poly (.fraction (.ofTerms [(-1, .finite false 1 2)]))
    let sum := binary .sum (binary .difference x x) half
    let cube := binary .power sum (constant (.fraction (.finite false 3 1)))
    let product := binary .product half (binary .product half half)
    ∃ P Q, Denotes cube P ∧ Denotes product Q ∧ cube.equivalent product = true ∧ P = Q := by
  intro x half sum cube product
  have hx : Denotes x _ := .poly (Laurent.reduced_ofTerms (by decide)) (by decide)
  have hhalf : Denotes half _ := .poly (Laurent.reduced_ofTerms (by decide)) (by decide)
  have hcube : Denotes cube _ := .power (.sum (.difference hx hx) hhalf) (by decide) (by decide)
  have hproduct : Denotes product _ := .product hhalf (.product hhalf hhalf)
  have heq : cube.equivalent product = true := by decide +kernel
  exact ⟨_, _, hcube, hproduct, heq,
    (simplified_is_ring_form_and_decides_equality hcube hproduct).2.1 heq⟩

end Formula.Expr
