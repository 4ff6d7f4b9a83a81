import Formula.Expr.Range
import Formula.Proofs.Expr.Basic
import Formula.Proofs.Laurent.Bounds

/-!
# Soundness of ranges

The range that interval arithmetic gives an expression over fractions contains each of its values
that is not NaN (`bounds_contains_evaluate`), at every point. The operators are taken one by one, and
the tree by induction: an operand that is NaN makes the result NaN, or the range the whole line, so
that nothing needs to be known of its own range.
-/

namespace Formula

theorem Bounds.Holds.kind_eq {b : Bounds} {v : Extended} (h : b.Holds v) : b.kind = .fraction := by
  obtain ⟨lo, hi, rfl, -⟩ := h
  rfl

/-! ## Operators -/

namespace Extended

/-- Factorials are at least one. -/
theorem one_le_factorial {v : Extended} (h : v.factorial ≠ nan) : 1 ≤ v.factorial := by
  rw [one_def]
  cases v with
  | nan => cases h rfl
  | infinite a => cases a <;> simp [factorial] at h ⊢
  | finite q =>
    rw [factorial] at h ⊢
    split_ifs at h ⊢
    · rw [finite_le]
      exact_mod_cast Nat.one_le_iff_ne_zero.2 (Nat.factorial_ne_zero _)
    · simp
    · cases h rfl

theorem ne_nan_of_factorial {v : Extended} (h : v.factorial ≠ nan) : v ≠ nan := by
  rintro rfl
  exact h rfl

theorem ne_nan_of_modulo {v w : Extended} (h : v.modulo w ≠ nan) : v ≠ nan ∧ w ≠ nan := by
  cases v <;> cases w <;> simp at h ⊢

end Extended

/-- The operators of one operand that are computed in floating point: the root and the logarithms. -/
def Operator.IsRounded (op : Operator) : Prop :=
  op ∈ [.unary .sqrt, .unary .ln, .unary .log2, .unary .log10]

instance : DecidablePred Operator.IsRounded :=
  fun op => inferInstanceAs (Decidable (op ∈ _))

theorem UnaryOp.holds_bounds {op : UnaryOp} {f g : Fraction} {b : Bounds}
    (hop : ¬ (Operator.unary op).IsRounded)
    (hf : f.WellFormed) (hg : op.apply (.fraction f) = .fraction g) (hn : g.value ≠ .nan)
    (hb : f.value ≠ .nan → b.Holds f.value) : (op.bounds b).Holds g.value := by
  cases op with
  | abs =>
    cases (apply_abs f).symm.trans hg
    rw [Fraction.value_abs hf] at hn ⊢
    exact Bounds.holds_abs (hb (Extended.abs_ne_nan.1 hn))
  | negate =>
    cases (apply_negate f).symm.trans hg
    rw [Fraction.value_neg hf] at hn ⊢
    exact Bounds.holds_negated (hb (Extended.neg_ne_nan.1 hn))
  | factorial =>
    cases (apply_factorial f).symm.trans hg
    rw [Fraction.value_factorial hf] at hn ⊢
    refine ⟨.one, .infinite false, ?_, Fraction.wellFormed_one, trivial, ?_, ?_⟩
    · rw [bounds, (hb (Extended.ne_nan_of_factorial hn)).kind_eq]
      rfl
    · rw [Fraction.value_one]
      exact Extended.one_le_factorial hn
    · exact (Extended.le_top _).2 hn
  | sqrt | ln | log2 | log10 => simp [Operator.IsRounded] at hop

theorem BinaryOp.holds_bounds {op : BinaryOp} {f g r : Fraction} {b c : Bounds} (hf : f.WellFormed)
    (hg : g.WellFormed) (hr : op.evaluate? (.fraction f) (.fraction g) = some (.fraction r))
    (hn : r.value ≠ .nan) (hb : f.value ≠ .nan → b.Holds f.value)
    (hc : g.value ≠ .nan → c.Holds g.value) : (op.bounds .fraction b c).Holds r.value := by
  cases op with
  | sum =>
    cases (evaluate?_sum f g).symm.trans hr
    rw [Fraction.value_add hf hg] at hn ⊢
    obtain ⟨hfn, hgn⟩ := Extended.ne_nan_of_add hn
    exact Bounds.holds_sum (hb hfn) (hc hgn) hn
  | difference =>
    cases (evaluate?_difference f g).symm.trans hr
    rw [Fraction.value_sub hf hg] at hn ⊢
    obtain ⟨hfn, hgn⟩ := Extended.ne_nan_of_add hn
    exact Bounds.holds_sum (hb hfn) (Bounds.holds_negated (hc (Extended.neg_ne_nan.1 hgn))) hn
  | product =>
    cases (evaluate?_product f g).symm.trans hr
    rw [Fraction.value_mul hf hg] at hn ⊢
    obtain ⟨hfn, hgn⟩ := Extended.ne_nan_of_mul hn
    exact Bounds.holds_product (hb hfn) (hc hgn) hn
  | quotient =>
    cases (evaluate?_quotient f g).symm.trans hr
    rw [Fraction.value_div hf hg] at hn ⊢
    obtain ⟨hfn, hgn⟩ := Extended.ne_nan_of_mul hn
    exact Bounds.holds_quotient (hb hfn) (hc (Extended.inv_ne_nan.1 hgn)) hn
  | modulo =>
    cases (evaluate?_modulo f g).symm.trans hr
    rw [Fraction.value_modulo hf hg] at hn ⊢
    exact Bounds.holds_modulo (hc (Extended.ne_nan_of_modulo hn).2) hn
  | power | logBase | nthDerivative | nthIntegral => exact Bounds.holds_unbounded hn

/-! ## Expressions -/

namespace Expr

/-- A range that is narrowed to the value of a constant expression still holds it. -/
theorem holds_of_constantValue? {e : Expr} {b : Bounds} {x f : Fraction}
    (he : e.evaluate (.fraction x) = .ok (.fraction f)) (hf : f.WellFormed)
    (hb : b.Holds f.value) :
    (match e.constantValue? with
      | some v => .point v
      | none => b : Bounds).Holds f.value := by
  split
  · next v hv =>
    rw [constantValue?] at hv
    split_ifs at hv with hconst
    rw [evaluate_eq_of_isConstant hconst _ (.fraction x), he] at hv
    simp only [Option.ite_none_left_eq_some, Option.some.injEq] at hv
    obtain ⟨-, rfl⟩ := hv
    exact Bounds.holds_point hf hb.ne_nan
  · exact hb

/-- The range of an expression over fractions holds its values. -/
theorem holds_bounds {e : Expr} {x f : Fraction} (he : e.OverFractions)
    (hop : ∀ op ∈ e.operators, ¬ op.IsRounded)
    (hev : e.evaluate (.fraction x) = .ok (.fraction f)) (hn : f.value ≠ .nan) :
    e.bounds.Holds f.value := by
  induction e generalizing f with
  | constant value =>
    obtain ⟨-, g, hfg, hg⟩ := evaluate_overFractions he hev
    cases hfg
    have hpoint := holds_of_constantValue? hev hg (Bounds.holds_point hg hn)
    cases hev
    rwa [bounds]
  | var => cases hev
  | hole => cases hev
  | poly p =>
    obtain ⟨-, g, hfg, hg⟩ := evaluate_overFractions he hev
    cases hfg
    rw [bounds]
    refine holds_of_constantValue? hev hg ?_
    cases p with
    | fraction p =>
      cases (Poly.evaluate_fraction p x).symm.trans hev
      rw [← p.eval_normalized, Laurent.value_eval he x.wellFormed_normalized] at hn ⊢
      exact Laurent.holds_bounds he hn
    | double => exact he.elim
    | single => exact he.elim
  | unary op a ih =>
    obtain ⟨-, g, hfg, hg⟩ := evaluate_overFractions he hev
    cases hfg
    rw [bounds]
    refine holds_of_constantValue? hev hg ?_
    obtain ⟨u, hu, happly⟩ := evaluate_unary hev
    obtain ⟨-, h, rfl, hh⟩ := evaluate_overFractions (e := a) he hu
    simp only [operators, List.forall_mem_cons] at hop
    exact UnaryOp.holds_bounds hop.1 hh happly hn (ih he hop.2 hu)
  | binary op a b iha ihb =>
    obtain ⟨-, r, hfr, hr⟩ := evaluate_overFractions he hev
    cases hfr
    rw [bounds]
    refine holds_of_constantValue? hev hr ?_
    obtain ⟨u, w, hu, hw, heval⟩ := evaluate_binary hev
    obtain ⟨hka, g, rfl, hg⟩ := evaluate_overFractions he.1 hu
    obtain ⟨hkb, h, rfl, hh⟩ := evaluate_overFractions he.2 hw
    simp only [operators, List.forall_mem_cons, List.forall_mem_append] at hop
    rw [hka, hkb, Kind.combine_self]
    exact BinaryOp.holds_bounds hg hh heval hn (iha he.1 hop.2.1 hu) (ihb he.2 hop.2.2 hw)

/-- Ranges are sound: the range of an expression over fractions, without roots and without the
logarithms to a fixed base, contains all its values but NaN. -/
theorem bounds_contains_evaluate {e : Expr} {x : Fraction} {v : Value} (he : e.OverFractions)
    (hop : ∀ op ∈ e.operators, ¬ op.IsRounded)
    (hev : e.evaluate (.fraction x) = .ok v) (hn : v.isNaN = false) :
    e.bounds.contains v = true := by
  obtain ⟨-, f, rfl, hf⟩ := evaluate_overFractions he hev
  have hfn : f.value ≠ .nan := mt Fraction.isNaN_iff.2 (Bool.eq_false_iff.1 hn)
  exact (holds_bounds he hop hev hfn).contains hf

/-- The remainder of `7 / 2` by `-2 * x ^ (-1)`, at the pole of the polynomial. -/
theorem bounds_contains_remainder_at_zero :
    let e := binary .modulo (constant (.fraction (.finite false 7 2)))
      (poly (.fraction ⟨[(-1, .finite true 2 1)]⟩))
    e.evaluate (.fraction .zero) = .ok (.fraction (.finite false 7 2)) ∧
      e.bounds.contains (.fraction (.finite false 7 2)) = true := by
  have hev : (binary .modulo (constant (.fraction (.finite false 7 2)))
      (poly (.fraction ⟨[(-1, .finite true 2 1)]⟩))).evaluate (.fraction .zero) =
        .ok (.fraction (.finite false 7 2)) := by
    with_unfolding_all rfl
  exact ⟨hev, bounds_contains_evaluate (by decide) (by decide) hev rfl⟩

end Expr

end Formula
