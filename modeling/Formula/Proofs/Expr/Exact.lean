import Formula.Proofs.Expr.Bounds
import Formula.Proofs.Laurent.Arithmetic

/-!
# Exact values

`Exact x e q` says that all of the expression `e` has rational values at the point `x`, and that the
value of `e` itself is `q`. The rules are those of arithmetic on rationals, so that identities between
expressions become identities between rationals. An expression over fractions whose parts all evaluate
to finite fractions has an exact value (`exists_exact`), and an expression with an exact value evaluates
to a fraction of this value (`Exact.evaluate`).
-/

namespace Formula

/-- The operators of arithmetic. -/
def Operator.IsArithmetic (op : Operator) : Prop :=
  op ∈ [.unary .abs, .unary .negate, .unary .factorial, .binary .sum, .binary .difference,
    .binary .product, .binary .quotient, .binary .power, .binary .modulo]

instance : DecidablePred Operator.IsArithmetic :=
  fun op => inferInstanceAs (Decidable (op ∈ _))

theorem Extended.factorial_eq_finite {p q : ℚ} (h : (finite p).factorial = finite q) :
    ∃ n : ℕ, p = n ∧ n ≤ 1000 := by
  by_cases hnat : ∃ n : ℕ, p = n
  · obtain ⟨n, rfl⟩ := hnat
    rw [factorial_of_natCast] at h
    split_ifs at h with hle
    exact ⟨n, rfl, hle⟩
  · rw [factorial_eq_nan fun n hn => hnat ⟨n, finite.inj hn⟩] at h
    cases h

namespace Expr

/-- All parts of the expression have rational values at `x`, and its own is the given one. -/
inductive Exact (x : Fraction) : Expr → ℚ → Prop
  | constant {f : Fraction} {q : ℚ} (hf : f.WellFormed) (h : f.value = .finite q) :
      Exact x (constant (.fraction f)) q
  | poly {p : Laurent Fraction} {q : ℚ} (h : Laurent.Sums x.normalized.value p.terms q) :
      Exact x (poly (.fraction p)) q
  | abs {a : Expr} {p : ℚ} (ha : Exact x a p) : Exact x (unary .abs a) |p|
  | negate {a : Expr} {p : ℚ} (ha : Exact x a p) : Exact x (unary .negate a) (-p)
  | factorial {a : Expr} {n : ℕ} (ha : Exact x a n) (hn : n ≤ 1000) :
      Exact x (unary .factorial a) n.factorial
  | sum {a b : Expr} {p q : ℚ} (ha : Exact x a p) (hb : Exact x b q) :
      Exact x (binary .sum a b) (p + q)
  | difference {a b : Expr} {p q : ℚ} (ha : Exact x a p) (hb : Exact x b q) :
      Exact x (binary .difference a b) (p - q)
  | product {a b : Expr} {p q : ℚ} (ha : Exact x a p) (hb : Exact x b q) :
      Exact x (binary .product a b) (p * q)
  | quotient {a b : Expr} {p q : ℚ} (ha : Exact x a p) (hb : Exact x b q) (hq : q ≠ 0) :
      Exact x (binary .quotient a b) (p / q)
  | power {a b : Expr} {p : ℚ} {n : ℤ} (ha : Exact x a p) (hb : Exact x b n) (hn : |n| ≤ 4096)
      (h : 0 ≤ n ∨ p ≠ 0) : Exact x (binary .power a b) (p ^ n)
  | modulo {a b : Expr} {p q : ℚ} (ha : Exact x a p) (hb : Exact x b q) (hq : q ≠ 0) :
      Exact x (binary .modulo a b) (p - q * Extended.truncate (p / q))

variable {x : Fraction} {e a b : Expr} {p q : ℚ}

/-! ## Evaluation -/

/-- An expression with an exact value evaluates to a fraction of this value. -/
theorem Exact.evaluate (h : Exact x e q) :
    ∃ f : Fraction, e.evaluate (.fraction x) = .ok (.fraction f) ∧ f.WellFormed ∧
      f.value = .finite q := by
  induction h with
  | constant hf h => exact ⟨_, rfl, hf, h⟩
  | @poly p q h =>
    obtain ⟨hp, hq⟩ := Laurent.sums_iff.1 h
    refine ⟨_, Poly.evaluate_fraction p x, p.wellFormed_eval x, ?_⟩
    rw [← p.eval_normalized, Laurent.value_eval hp x.wellFormed_normalized, hq]
  | abs _ ih =>
    obtain ⟨f, hf, hwf, hv⟩ := ih
    refine ⟨f.abs, evaluate_unary_of hf, f.wellFormed_abs, ?_⟩
    rw [Fraction.value_abs hwf, hv, Extended.abs_finite]
  | negate _ ih =>
    obtain ⟨f, hf, hwf, hv⟩ := ih
    refine ⟨-f, evaluate_unary_of hf, f.wellFormed_neg, ?_⟩
    rw [Fraction.value_neg hwf, hv, Extended.neg_finite]
  | factorial _ hn ih =>
    obtain ⟨f, hf, hwf, hv⟩ := ih
    refine ⟨Scalar.factorial f, evaluate_unary_of hf, f.wellFormed_factorial, ?_⟩
    rw [Fraction.value_factorial hwf, hv, Extended.factorial_natCast hn]
  | sum _ _ iha ihb =>
    obtain ⟨f, hf, hfwf, hfv⟩ := iha
    obtain ⟨g, hg, hgwf, hgv⟩ := ihb
    refine ⟨_, evaluate_binary_of hf hg (BinaryOp.evaluate?_sum f g),
      Fraction.wellFormed_add _ _ hfwf hgwf, ?_⟩
    rw [Fraction.value_add hfwf hgwf, hfv, hgv, Extended.finite_add]
  | difference _ _ iha ihb =>
    obtain ⟨f, hf, hfwf, hfv⟩ := iha
    obtain ⟨g, hg, hgwf, hgv⟩ := ihb
    refine ⟨_, evaluate_binary_of hf hg (BinaryOp.evaluate?_difference f g),
      Fraction.wellFormed_sub hfwf, ?_⟩
    rw [Fraction.value_sub hfwf hgwf, hfv, hgv, Extended.neg_finite, Extended.finite_add,
      sub_eq_add_neg]
  | product _ _ iha ihb =>
    obtain ⟨f, hf, hfwf, hfv⟩ := iha
    obtain ⟨g, hg, hgwf, hgv⟩ := ihb
    refine ⟨_, evaluate_binary_of hf hg (BinaryOp.evaluate?_product f g),
      Fraction.wellFormed_mul _ _, ?_⟩
    rw [Fraction.value_mul hfwf hgwf, hfv, hgv, Extended.finite_mul]
  | quotient _ _ hq iha ihb =>
    obtain ⟨f, hf, hfwf, hfv⟩ := iha
    obtain ⟨g, hg, hgwf, hgv⟩ := ihb
    refine ⟨_, evaluate_binary_of hf hg (BinaryOp.evaluate?_quotient f g),
      Fraction.wellFormed_div _ _, ?_⟩
    rw [Fraction.value_div hfwf hgwf, hfv, hgv, Extended.inv_finite, if_neg hq,
      Extended.finite_mul, div_eq_mul_inv]
  | power _ _ hn h iha ihb =>
    obtain ⟨f, hf, hfwf, hfv⟩ := iha
    obtain ⟨g, hg, hgwf, hgv⟩ := ihb
    refine ⟨_, evaluate_binary_of hf hg (BinaryOp.evaluate?_power f g),
      Fraction.wellFormed_pow _ _, ?_⟩
    rw [Fraction.value_pow hfwf hgwf hgv hn, hfv, Extended.finite_zpow h]
  | modulo _ _ hq iha ihb =>
    obtain ⟨f, hf, hfwf, hfv⟩ := iha
    obtain ⟨g, hg, hgwf, hgv⟩ := ihb
    refine ⟨_, evaluate_binary_of hf hg (BinaryOp.evaluate?_modulo f g),
      Fraction.wellFormed_modulo hfwf, ?_⟩
    rw [Fraction.value_modulo hfwf hgwf, hfv, hgv, Extended.modulo_finite, if_neg hq]

/-! ## Existence -/

theorem exists_exact_unary {op : UnaryOp} {f : Fraction}
    (hop : (Operator.unary op).IsArithmetic) (ha : Exact x a p)
    (hf : (unary op a).evaluate (.fraction x) = .ok (.fraction f)) (hfin : f.isFinite = true) :
    ∃ q, Exact x (unary op a) q := by
  obtain ⟨g, hg, hgwf, hgv⟩ := ha.evaluate
  obtain ⟨r, hr⟩ := Fraction.isFinite_iff.1 hfin
  rw [evaluate_unary_of hg, Except.ok.injEq] at hf
  cases op with
  | abs => exact ⟨_, .abs ha⟩
  | negate => exact ⟨_, .negate ha⟩
  | factorial =>
    cases (UnaryOp.apply_factorial g).symm.trans hf
    rw [Fraction.value_factorial hgwf, hgv] at hr
    obtain ⟨n, rfl, hn⟩ := Extended.factorial_eq_finite hr
    exact ⟨_, .factorial ha hn⟩
  | sqrt | ln | log2 | log10 => simp [Operator.IsArithmetic] at hop

theorem exists_exact_binary {op : BinaryOp} {f : Fraction}
    (hop : (Operator.binary op).IsArithmetic) (ha : Exact x a p) (hb : Exact x b q)
    (hf : (binary op a b).evaluate (.fraction x) = .ok (.fraction f)) (hfin : f.isFinite = true)
    (hpow : op = .power → ∃ n : ℤ, q = n ∧ |n| ≤ 4096) : ∃ r, Exact x (binary op a b) r := by
  obtain ⟨g, hg, hgwf, hgv⟩ := ha.evaluate
  obtain ⟨h, hh, hhwf, hhv⟩ := hb.evaluate
  obtain ⟨r, hr⟩ := Fraction.isFinite_iff.1 hfin
  cases op with
  | sum => exact ⟨_, .sum ha hb⟩
  | difference => exact ⟨_, .difference ha hb⟩
  | product => exact ⟨_, .product ha hb⟩
  | quotient =>
    cases (evaluate_binary_of hg hh (BinaryOp.evaluate?_quotient g h)).symm.trans hf
    rw [Fraction.value_div hgwf hhwf, hgv, hhv, Extended.inv_finite] at hr
    split_ifs at hr with hq
    · obtain ⟨_, _, _, hinf, -⟩ := Extended.mul_eq_finite hr
      cases hinf
    · exact ⟨_, .quotient ha hb hq⟩
  | power =>
    obtain ⟨n, rfl, hn⟩ := hpow rfl
    cases (evaluate_binary_of hg hh (BinaryOp.evaluate?_power g h)).symm.trans hf
    rw [Fraction.value_pow hgwf hhwf hhv hn, hgv] at hr
    refine ⟨_, .power ha hb hn ?_⟩
    rcases Extended.zpow_eq_finite hr with rfl | ⟨_, hp, h, -⟩ | ⟨_, hp, -⟩
    · exact .inl (le_refl 0)
    · cases hp
      exact h
    · cases hp
  | modulo =>
    cases (evaluate_binary_of hg hh (BinaryOp.evaluate?_modulo g h)).symm.trans hf
    rw [Fraction.value_modulo hgwf hhwf, hgv, hhv, Extended.modulo_finite] at hr
    split_ifs at hr with hq
    exact ⟨_, .modulo ha hb hq⟩
  | logBase | nthDerivative | nthIntegral => simp [Operator.IsArithmetic] at hop

/-- An expression over fractions with the operators of arithmetic has an exact value at a point where
all its parts evaluate to finite fractions, and the exponents to small integers. -/
theorem exists_exact (he : e.OverFractions) (hop : ∀ op ∈ e.operators, op.IsArithmetic)
    (hfin : ∀ s ∈ e.subexpressions, ∃ f : Fraction,
      s.evaluate (.fraction x) = .ok (.fraction f) ∧ f.isFinite = true)
    (hpow : ∀ base exponent, binary .power base exponent ∈ e.subexpressions →
      ∃ (g : Fraction) (n : ℤ), exponent.evaluate (.fraction x) = .ok (.fraction g) ∧
        (g == .ofInt n) = true ∧ |n| ≤ 4096) : ∃ q, Exact x e q := by
  induction e with
  | constant value =>
    obtain ⟨f, hf, hffin⟩ := hfin _ (List.mem_singleton_self _)
    obtain ⟨q, hq⟩ := Fraction.isFinite_iff.1 hffin
    cases hf
    exact ⟨q, .constant he hq⟩
  | var =>
    obtain ⟨f, hf, -⟩ := hfin _ (List.mem_singleton_self _)
    cases hf
  | hole =>
    obtain ⟨f, hf, -⟩ := hfin _ (List.mem_singleton_self _)
    cases hf
  | poly p =>
    obtain ⟨f, hf, hffin⟩ := hfin _ (List.mem_singleton_self _)
    obtain ⟨q, hq⟩ := Fraction.isFinite_iff.1 hffin
    cases p with
    | fraction p =>
      cases (Poly.evaluate_fraction p x).symm.trans hf
      rw [← p.eval_normalized, Laurent.value_eval he x.wellFormed_normalized] at hq
      exact ⟨q, .poly (Laurent.sums_iff.2 ⟨he, hq⟩)⟩
    | double => exact he.elim
    | single => exact he.elim
  | unary op a ih =>
    simp only [operators, subexpressions, List.forall_mem_cons] at hop hfin
    obtain ⟨⟨f, hf, hffin⟩, hfin⟩ := hfin
    obtain ⟨p, hp⟩ := ih he hop.2 hfin fun base exponent hmem =>
      hpow base exponent (List.mem_cons_of_mem _ hmem)
    exact exists_exact_unary hop.1 hp hf hffin
  | binary op a b iha ihb =>
    simp only [operators, subexpressions, List.forall_mem_cons, List.forall_mem_append] at hop hfin
    obtain ⟨⟨f, hf, hffin⟩, hfina, hfinb⟩ := hfin
    obtain ⟨p, hp⟩ := iha he.1 hop.2.1 hfina fun base exponent hmem =>
      hpow base exponent (List.mem_cons_of_mem _ (List.mem_append_left _ hmem))
    obtain ⟨q, hq⟩ := ihb he.2 hop.2.2 hfinb fun base exponent hmem =>
      hpow base exponent (List.mem_cons_of_mem _ (List.mem_append_right _ hmem))
    refine exists_exact_binary hop.1 hp hq hf hffin ?_
    rintro rfl
    obtain ⟨g, n, hg, hgn, hn⟩ := hpow a b List.mem_cons_self
    obtain ⟨h, hh, hhwf, hhv⟩ := hq.evaluate
    cases hg.symm.trans hh
    have hvalue := ((Fraction.beq_iff hhwf (Fraction.wellFormed_ofInt n)).1 hgn).1
    rw [hhv, Fraction.value_ofInt, Extended.finite.injEq] at hvalue
    exact ⟨n, hvalue, hn⟩

/-! ## Shape and sign -/

namespace Exact

theorem overFractions (h : Exact x e q) : e.OverFractions := by
  induction h with
  | constant hf _ => exact hf
  | poly h => exact h.wellFormed
  | abs _ ih | negate _ ih | factorial _ _ ih => exact ih
  | sum _ _ iha ihb | difference _ _ iha ihb | product _ _ iha ihb => exact ⟨iha, ihb⟩
  | quotient _ _ _ iha ihb | modulo _ _ _ iha ihb => exact ⟨iha, ihb⟩
  | power _ _ _ _ iha ihb => exact ⟨iha, ihb⟩

theorem not_isRounded (h : Exact x e q) : ∀ op ∈ e.operators, ¬ op.IsRounded := by
  induction h with
  | constant | poly => simp [operators]
  | abs _ ih | negate _ ih | factorial _ _ ih =>
    exact List.forall_mem_cons.2 ⟨by decide, ih⟩
  | sum _ _ iha ihb | difference _ _ iha ihb | product _ _ iha ihb =>
    exact List.forall_mem_cons.2 ⟨by decide, List.forall_mem_append.2 ⟨iha, ihb⟩⟩
  | quotient _ _ _ iha ihb | modulo _ _ _ iha ihb =>
    exact List.forall_mem_cons.2 ⟨by decide, List.forall_mem_append.2 ⟨iha, ihb⟩⟩
  | power _ _ _ _ iha ihb =>
    exact List.forall_mem_cons.2 ⟨by decide, List.forall_mem_append.2 ⟨iha, ihb⟩⟩

theorem kind_eq (h : Exact x e q) : e.kind = .fraction := by
  obtain ⟨f, hf, -⟩ := h.evaluate
  exact (evaluate_overFractions h.overFractions hf).1

/-- A known sign is the sign of the value. -/
theorem isNegative?_sound {negative : Bool} (h : Exact x e q)
    (hs : e.isNegative? = some negative) : if negative then q < 0 else 0 ≤ q := by
  obtain ⟨f, hf, -, hv⟩ := h.evaluate
  have hholds := holds_bounds h.overFractions h.not_isRounded hf (by simp [hv])
  have hsign := Bounds.isNegative?_sound hholds hs
  rwa [hv, Extended.zero_def, Extended.finite_le, not_le] at hsign

end Exact

/-! ## Equal trees -/

theorem sameTree_constant {v : Value} {nanEqual : Bool}
    (h : sameTree nanEqual (constant v) e = true) (hv : v.isNaN = false) :
    ∃ w, e = constant w ∧ (v == w) = true := by
  cases e <;> simp_all [sameTree]

theorem sameTree_poly {p : Poly} {nanEqual : Bool} (h : sameTree nanEqual (poly p) e = true) :
    ∃ q, e = poly q ∧ (p == q) = true := by
  cases e <;> simp_all [sameTree]

theorem sameTree_unary {op : UnaryOp} {nanEqual : Bool}
    (h : sameTree nanEqual (unary op a) e = true) :
    ∃ c, e = unary op c ∧ sameTree nanEqual a c = true := by
  cases e <;> simp_all [sameTree]

theorem sameTree_binary {op : BinaryOp} {nanEqual : Bool}
    (h : sameTree nanEqual (binary op a b) e = true) :
    ∃ c d, e = binary op c d ∧ sameTree nanEqual a c = true ∧ sameTree nanEqual b d = true := by
  cases e <;> simp_all [sameTree]

/-- Trees that agree node for node have one value. -/
theorem Exact.eq_of_sameTree {nanEqual : Bool} (ha : Exact x a p) (hb : Exact x b q)
    (h : sameTree nanEqual a b = true) : p = q := by
  induction ha generalizing b q with
  | @constant f p hf hfv =>
    have hn : (Value.fraction f).isNaN = false := by
      refine Bool.eq_false_iff.2 fun hn => ?_
      simpa [hfv] using Fraction.isNaN_iff.1 hn
    obtain ⟨w, rfl, hw⟩ := sameTree_constant h hn
    cases hb with
    | constant hg hgv =>
      have hvalue := ((Fraction.beq_iff hf hg).1 hw).1
      rwa [hfv, hgv, Extended.finite.injEq] at hvalue
  | poly hp =>
    obtain ⟨r, rfl, hr⟩ := sameTree_poly h
    cases hb with
    | poly hq => exact Laurent.sums_eq_of_beq hp hq hr
  | abs _ ih =>
    obtain ⟨c, rfl, hc⟩ := sameTree_unary h
    cases hb with
    | abs hb => rw [ih hb hc]
  | negate _ ih =>
    obtain ⟨c, rfl, hc⟩ := sameTree_unary h
    cases hb with
    | negate hb => rw [ih hb hc]
  | factorial _ _ ih =>
    obtain ⟨c, rfl, hc⟩ := sameTree_unary h
    cases hb with
    | factorial hb => rw [Nat.cast_injective (ih hb hc)]
  | sum _ _ iha ihb =>
    obtain ⟨c, d, rfl, hc, hd⟩ := sameTree_binary h
    cases hb with
    | sum hb hb' => rw [iha hb hc, ihb hb' hd]
  | difference _ _ iha ihb =>
    obtain ⟨c, d, rfl, hc, hd⟩ := sameTree_binary h
    cases hb with
    | difference hb hb' => rw [iha hb hc, ihb hb' hd]
  | product _ _ iha ihb =>
    obtain ⟨c, d, rfl, hc, hd⟩ := sameTree_binary h
    cases hb with
    | product hb hb' => rw [iha hb hc, ihb hb' hd]
  | quotient _ _ _ iha ihb =>
    obtain ⟨c, d, rfl, hc, hd⟩ := sameTree_binary h
    cases hb with
    | quotient hb hb' => rw [iha hb hc, ihb hb' hd]
  | power _ _ _ _ iha ihb =>
    obtain ⟨c, d, rfl, hc, hd⟩ := sameTree_binary h
    cases hb with
    | power hb hb' => rw [iha hb hc, Int.cast_injective (ihb hb' hd)]
  | modulo _ _ _ iha ihb =>
    obtain ⟨c, d, rfl, hc, hd⟩ := sameTree_binary h
    cases hb with
    | modulo hb hb' => rw [iha hb hc, ihb hb' hd]

end Expr

end Formula
