import Formula.Proofs.Expr.Bounds
import Formula.Proofs.Laurent.Laws

/-!
# Ranges are intervals

An interval `IsProper` if some number lies between its ends, so that the lower end is at most the upper
one. Every operation on intervals that takes the extremes over candidates gives a proper interval,
whatever its operands are, as a NaN among the candidates makes it the whole line. Absolute values and
negations take the ends as they are. So the range of an expression over fractions is proper unless the
expression is a NaN constant under absolute values and negations, and then one end is NaN
(`bounds_ordered_iff`).
-/

namespace Formula

/-! ## Operations on intervals -/

namespace Bounds

variable {b c : Bounds}

/-- Both ends are well-formed fractions. They may be NaN. -/
def OverFractions (b : Bounds) : Prop :=
  ∃ lo hi : Fraction, b = ⟨.fraction lo, .fraction hi⟩ ∧ lo.WellFormed ∧ hi.WellFormed

/-- Some number lies between the ends, which are well-formed fractions. -/
def IsProper (b : Bounds) : Prop :=
  ∃ v, b.Holds v

theorem IsProper.overFractions (h : b.IsProper) : b.OverFractions := by
  obtain ⟨v, lo, hi, rfl, hlo, hhi, -⟩ := h
  exact ⟨lo, hi, rfl, hlo, hhi⟩

theorem OverFractions.isProper_iff (h : b.OverFractions) :
    b.IsProper ↔ b.min.le b.max = true := by
  obtain ⟨lo, hi, rfl, hlo, hhi⟩ := h
  rw [Value.le_fraction hlo hhi]
  constructor
  · rintro ⟨v, lo', hi', heq, -, -, hlov, hvhi⟩
    cases heq
    exact Extended.le_trans hlov hvhi
  · intro hle
    exact ⟨lo.value, lo, hi, rfl, hlo, hhi, Extended.le_refl (Extended.ne_nan_of_le hle).1, hle⟩

/-- A proper interval has no NaN for an end. -/
theorem IsProper.isNaN_eq_false (h : b.IsProper) : b.min.isNaN = false ∧ b.max.isNaN = false := by
  obtain ⟨v, lo, hi, rfl, -, -, hlov, hvhi⟩ := h
  have hlo := (Extended.ne_nan_of_le hlov).1
  have hhi := (Extended.ne_nan_of_le hvhi).2
  exact ⟨Bool.eq_false_iff.2 (mt Fraction.isNaN_iff.1 hlo),
    Bool.eq_false_iff.2 (mt Fraction.isNaN_iff.1 hhi)⟩

theorem isProper_point {f : Fraction} (hf : f.WellFormed) (hn : f.value ≠ .nan) :
    (point (.fraction f)).IsProper :=
  ⟨f.value, holds_point hf hn⟩

theorem isProper_unbounded : (unbounded .fraction).IsProper :=
  ⟨0, holds_unbounded Extended.noConfusion⟩

/-- The hull of candidates is proper, also if there are none or one of them is NaN. -/
theorem isProper_ofCandidates (cs : List Fraction) (hwf : ∀ f ∈ cs, f.WellFormed) :
    (ofCandidates .fraction (cs.map .fraction)).IsProper := by
  cases cs with
  | nil => exact isProper_unbounded
  | cons f cs =>
    by_cases hn : f.value = .nan
    · refine ⟨0, holds_ofCandidates _ _ hwf rfl Extended.noConfusion fun hall => ?_⟩
      exact absurd hn (hall f.value List.mem_cons_self)
    · refine ⟨f.value, holds_ofCandidates _ _ hwf rfl hn fun _ => ?_⟩
      have hmem := List.mem_cons_self (a := f.value) (l := cs.map Fraction.value)
      exact ⟨⟨f.value, hmem, Extended.le_refl hn⟩, f.value, hmem, Extended.le_refl hn⟩

theorem OverFractions.isProper_sum (hb : b.OverFractions) (hc : c.OverFractions) :
    (b.sum c).IsProper := by
  obtain ⟨lo, hi, rfl, hlo, hhi⟩ := hb
  obtain ⟨lo', hi', rfl, hlo', hhi'⟩ := hc
  apply isProper_ofCandidates [lo + lo', hi + hi']
  simp [Fraction.wellFormed_add, hlo, hhi, hlo', hhi']

theorem OverFractions.negated (hb : b.OverFractions) : b.negated.OverFractions := by
  obtain ⟨lo, hi, rfl, -, -⟩ := hb
  exact ⟨-hi, -lo, rfl, Fraction.wellFormed_neg hi, Fraction.wellFormed_neg lo⟩

theorem IsProper.negated (hb : b.IsProper) : b.negated.IsProper :=
  hb.imp' _ fun _ => holds_negated

theorem IsProper.abs (hb : b.IsProper) : b.abs.IsProper :=
  hb.imp' _ fun _ => holds_abs

/-- The extremes over the corners of a function on fractions. -/
theorem OverFractions.isProper_corners {f : Value → Value → Value}
    {g : Fraction → Fraction → Fraction} (hf : ∀ x y, f (.fraction x) (.fraction y) = .fraction (g x y))
    (hg : ∀ x y, (g x y).WellFormed) (hb : b.OverFractions) (hc : c.OverFractions) :
    (b.corners f c).IsProper := by
  obtain ⟨lo, hi, rfl, -, -⟩ := hb
  obtain ⟨lo', hi', rfl, -, -⟩ := hc
  have h := isProper_ofCandidates [g lo lo', g lo hi', g hi lo', g hi hi'] (by simp [hg])
  simp only [List.map_cons, List.map_nil, ← hf] at h
  exact h

/-- Both ends are zero or NaN, and one of them is NaN. -/
def IsDegenerate (b : Bounds) : Prop :=
  ∃ lo hi : Fraction, b = ⟨.fraction lo, .fraction hi⟩ ∧ lo.WellFormed ∧ hi.WellFormed ∧
    (lo.value = .nan ∨ lo.value = 0) ∧ (hi.value = .nan ∨ hi.value = 0) ∧
    (lo.value = .nan ∨ hi.value = .nan)

theorem IsDegenerate.overFractions (h : b.IsDegenerate) : b.OverFractions := by
  obtain ⟨lo, hi, rfl, hlo, hhi, -⟩ := h
  exact ⟨lo, hi, rfl, hlo, hhi⟩

theorem IsDegenerate.isNaN (h : b.IsDegenerate) : b.min.isNaN = true ∨ b.max.isNaN = true := by
  obtain ⟨lo, hi, rfl, -, -, -, -, hn⟩ := h
  exact hn.imp Fraction.isNaN_iff.2 Fraction.isNaN_iff.2

theorem IsDegenerate.negated (h : b.IsDegenerate) : b.negated.IsDegenerate := by
  obtain ⟨lo, hi, rfl, hlo, hhi, hlov, hhiv, hn⟩ := h
  have hneg {v : Extended} (hv : v = .nan ∨ v = 0) : -v = .nan ∨ -v = 0 := by
    rcases hv with rfl | rfl <;> simp [Extended.zero_def]
  refine ⟨-hi, -lo, rfl, Fraction.wellFormed_neg hi, Fraction.wellFormed_neg lo, ?_, ?_, ?_⟩
  · rw [Fraction.value_neg hhi]
    exact hneg hhiv
  · rw [Fraction.value_neg hlo]
    exact hneg hlov
  · rw [Fraction.value_neg hlo, Fraction.value_neg hhi]
    rcases hn with h | h <;> simp [h]

theorem IsDegenerate.abs (h : b.IsDegenerate) : b.abs.IsDegenerate := by
  unfold Bounds.abs
  split
  · exact h
  · exact h.negated
  · next hs =>
    obtain ⟨lo, hi, rfl, hlo, hhi, hlov, -⟩ := h
    -- a lower end of zero would have given the sign
    have hnan : lo.value = .nan := by
      refine hlov.resolve_right fun hzero => ?_
      have hle : (Value.zero (Bounds.kind ⟨.fraction lo, .fraction hi⟩)).le (.fraction lo) = true := by
        refine (Value.le_fraction Fraction.wellFormed_zero hlo).2 ?_
        rw [Fraction.value_zero, hzero]
        exact Extended.le_refl (by simp [Extended.zero_def])
      rw [isNegative?, if_pos hle] at hs
      split_ifs at hs
    have hneg : (-lo).value = .nan := by rw [Fraction.value_neg hlo, hnan, Extended.neg_nan]
    have hmax : (Value.fraction (-lo)).max (.fraction hi) = .fraction (-lo) := by
      rw [Value.max, Value.compare?_fraction (Fraction.wellFormed_neg lo) hhi,
        Extended.compare?_eq_none_iff.2 (.inl hneg)]
      rfl
    exact ⟨.zero, -lo, by rw [← hmax]; rfl, Fraction.wellFormed_zero, Fraction.wellFormed_neg lo,
      .inr Fraction.value_zero, .inl hneg, .inr hneg⟩

end Bounds

theorem Value.exists_max_eq {f g : Fraction} (hf : f.WellFormed) (hg : g.WellFormed) :
    ∃ h : Fraction, (fraction f).max (fraction g) = fraction h ∧ h.WellFormed := by
  unfold max
  split_ifs
  · exact ⟨g, rfl, hg⟩
  · exact ⟨f, rfl, hf⟩

theorem Bounds.OverFractions.isProper_monotone {b : Bounds} {f : Value → Value}
    (hf : ∀ x : Fraction, ∃ y : Fraction, f (.fraction x) = .fraction y ∧ y.WellFormed)
    (hb : b.OverFractions) : (b.monotone f).IsProper := by
  obtain ⟨lo, hi, rfl, hlo, -⟩ := hb
  obtain ⟨m, hm, -⟩ := Value.exists_max_eq hlo Fraction.wellFormed_zero
  obtain ⟨x, hx, hxwf⟩ := hf m
  obtain ⟨y, hy, hywf⟩ := hf hi
  have h := isProper_ofCandidates [x, y] (by simp [hxwf, hywf])
  simp only [List.map_cons, List.map_nil, ← hx, ← hy, ← hm] at h
  exact h

/-! ## Operators -/

/-- Apart from absolute values and negations, operators of one operand have proper ranges. -/
theorem UnaryOp.isProper_bounds {op : UnaryOp} {b : Bounds} (hb : b.OverFractions) (habs : op ≠ .abs)
    (hnegate : op ≠ .negate) : (op.bounds b).IsProper := by
  cases op with
  | abs => contradiction
  | negate => contradiction
  | sqrt => exact hb.isProper_monotone (apply_fraction .sqrt)
  | ln => exact hb.isProper_monotone (apply_fraction .ln)
  | log2 => exact hb.isProper_monotone (apply_fraction .log2)
  | log10 => exact hb.isProper_monotone (apply_fraction .log10)
  | factorial =>
    obtain ⟨lo, hi, rfl, -, -⟩ := hb
    refine ⟨1, .one, .infinite false, rfl, Fraction.wellFormed_one, trivial, ?_, ?_⟩
    · simp [Extended.one_def]
    · simp [Extended.one_def]

/-- Operators of two operands have proper ranges. -/
theorem BinaryOp.isProper_bounds (op : BinaryOp) {b c : Bounds} (hb : b.OverFractions)
    (hc : c.OverFractions) : (op.bounds .fraction b c).IsProper := by
  cases op with
  | sum => exact hb.isProper_sum hc
  | difference => exact hb.isProper_sum hc.negated
  | product => exact hb.isProper_corners (g := (· * ·)) (fun _ _ => rfl) Fraction.wellFormed_mul hc
  | quotient =>
    rw [bounds]
    split_ifs
    · exact Bounds.isProper_unbounded
    · exact hb.isProper_corners (g := (· / ·)) (fun _ _ => rfl) Fraction.wellFormed_div hc
  | modulo =>
    obtain ⟨lo, hi, rfl, hlo, hhi⟩ := hc
    obtain ⟨reach, hreach, hwf⟩ :=
      Value.exists_max_eq (Fraction.wellFormed_abs lo) (Fraction.wellFormed_abs hi)
    have h := Bounds.isProper_ofCandidates [-reach, reach]
      (by simp [Fraction.wellFormed_neg, hwf])
    have hends : [-(Value.fraction reach), Value.fraction reach] =
        [-reach, reach].map Value.fraction := rfl
    rw [← hends, ← hreach] at h
    exact h
  | power | logBase | nthDerivative | nthIntegral => exact Bounds.isProper_unbounded

/-! ## Polynomials -/

namespace Laurent

theorem wellFormed_limitAtInfinity {p : Laurent Fraction} (hp : p.WellFormed) (fromBelow : Bool) :
    (p.limitAtInfinity fromBelow).WellFormed := by
  rw [limitAtInfinity, signedInfinity_fraction]
  split_ifs
  · exact Fraction.wellFormed_infinite _
  · exact forall_coefficient Fraction.wellFormed_zero hp 0

theorem wellFormed_limitAtZero {p : Laurent Fraction} (hp : p.WellFormed) (fromBelow : Bool) :
    (p.limitAtZero fromBelow).WellFormed := by
  rw [limitAtZero, signedInfinity_fraction]
  split_ifs
  · exact Fraction.wellFormed_infinite _
  · exact forall_coefficient Fraction.wellFormed_zero hp 0

theorem isProper_termBounds {c : Fraction} (hc : c.WellFormed) (p : ℤ) :
    (termBounds p c).IsProper := by
  have hterm : (monomial c p).WellFormed :=
    (canonical_ofTerms (List.forall_mem_singleton.2 hc)).wellFormed
  rw [termBounds_eq]
  apply Bounds.isProper_ofCandidates
  simp [limits, wellFormed_limitAtInfinity hterm, wellFormed_limitAtZero hterm]

/-- The range of a polynomial is proper, also if some of its coefficients are infinite or NaN. -/
theorem isProper_bounds {p : Laurent Fraction} (hp : p.WellFormed) : p.bounds.IsProper := by
  obtain ⟨ts⟩ := p
  induction ts with
  | nil => exact ⟨_, Bounds.holds_point Fraction.wellFormed_zero Extended.noConfusion⟩
  | cons t ts ih =>
    rw [bounds_cons]
    have hts := ih fun u hu => hp u (List.mem_cons_of_mem t hu)
    have ht := isProper_termBounds (hp t List.mem_cons_self) t.1
    exact hts.overFractions.isProper_sum ht.overFractions

end Laurent

/-! ## Expressions -/

namespace Expr

variable {e : Expr}

/-- A NaN constant, which may be under absolute values and negations. -/
inductive IsSignedNaN : Expr → Prop where
  | constant {v : Value} (h : v.isNaN = true) : IsSignedNaN (constant v)
  | abs {e : Expr} (h : IsSignedNaN e) : IsSignedNaN (unary .abs e)
  | negate {e : Expr} (h : IsSignedNaN e) : IsSignedNaN (unary .negate e)

theorem not_isSignedNaN_binary (op : BinaryOp) (a b : Expr) : ¬ (binary op a b).IsSignedNaN :=
  nofun

theorem IsSignedNaN.evaluate_eq (h : e.IsSignedNaN) (he : e.OverFractions) (x : Value) :
    e.evaluate x = .ok (.fraction .nan) := by
  induction h with
  | @constant v h =>
    cases v with
    | fraction f =>
      cases f with
      | nan => rfl
      | infinite => cases h
      | finite => cases h
    | double => exact he.elim
    | single => exact he.elim
  | abs _ ih => exact evaluate_unary_of (ih he)
  | negate _ ih => exact evaluate_unary_of (ih he)

theorem IsSignedNaN.constantValue?_eq (h : e.IsSignedNaN) (he : e.OverFractions) :
    e.constantValue? = none := by
  rw [constantValue?, h.evaluate_eq he]
  split_ifs <;> rfl

/-- The range of a NaN constant is kept as it is: that `constantValue?` leaves NaN out does not
lead to the whole line. -/
theorem IsSignedNaN.isDegenerate_bounds (h : e.IsSignedNaN) (he : e.OverFractions) :
    e.bounds.IsDegenerate := by
  induction h with
  | @constant v h =>
    have hv : (Expr.constant v).evaluate v = .ok (.fraction .nan) :=
      IsSignedNaN.evaluate_eq (.constant h) he v
    cases hv
    exact ⟨.nan, .nan, rfl, trivial, trivial, .inl rfl, .inl rfl, .inl rfl⟩
  | abs h ih =>
    rw [bounds, h.abs.constantValue?_eq he]
    exact (ih he).abs
  | negate h ih =>
    rw [bounds, h.negate.constantValue?_eq he]
    exact (ih he).negated

/-- An expression over fractions without missing operands is of their kind. -/
theorem kind_of_overFractions (he : e.OverFractions) (hres : e.isResolved = true) :
    e.kind = .fraction := by
  induction e with
  | constant v =>
    cases v with
    | fraction => rfl
    | double => exact he.elim
    | single => exact he.elim
  | var => exact he
  | hole => cases hres
  | poly p =>
    cases p with
    | fraction => rfl
    | double => exact he.elim
    | single => exact he.elim
  | unary op a ih => exact ih he hres
  | binary op a b iha ihb =>
    rw [isResolved, Bool.and_eq_true] at hres
    rw [kind, iha he.1 hres.1, ihb he.2 hres.2, Kind.combine_self]

theorem isProper_of_constantValue? {b : Bounds} (he : e.OverFractions) (hb : b.IsProper) :
    (match e.constantValue? with
      | some v => .point v
      | none => b : Bounds).IsProper := by
  split
  · next v hv =>
    rw [Expr.constantValue?] at hv
    split_ifs at hv with hconst
    rw [evaluate_eq_of_isConstant hconst _ (.fraction .zero)] at hv
    split at hv
    · next w hw =>
      obtain ⟨-, f, rfl, hf⟩ := evaluate_overFractions he hw
      simp only [Option.ite_none_left_eq_some, Option.some.injEq] at hv
      obtain ⟨hn, rfl⟩ := hv
      exact Bounds.isProper_point hf (mt Fraction.isNaN_iff.2 hn)
    · cases hv
  · exact hb

theorem overFractions_bounds_of (he : e.OverFractions) (h : e.IsSignedNaN ∨ e.bounds.IsProper) :
    e.bounds.OverFractions := by
  rcases h with h | h
  · exact (h.isDegenerate_bounds he).overFractions
  · exact h.overFractions

theorem isSignedNaN_or_isProper (he : e.OverFractions) (hres : e.isResolved = true) :
    e.IsSignedNaN ∨ e.bounds.IsProper := by
  induction e with
  | constant v =>
    cases hn : v.isNaN with
    | true => exact .inl (.constant hn)
    | false =>
      right
      rw [bounds]
      refine isProper_of_constantValue? he ?_
      obtain ⟨-, f, rfl, hf⟩ := evaluate_overFractions (x := .zero) he rfl
      exact Bounds.isProper_point hf (mt Fraction.isNaN_iff.2 (Bool.eq_false_iff.1 hn))
  | var name k =>
    obtain rfl : k = .fraction := he
    exact .inr Bounds.isProper_unbounded
  | hole => cases hres
  | poly p =>
    right
    rw [bounds]
    refine isProper_of_constantValue? he ?_
    cases p with
    | fraction p => exact Laurent.isProper_bounds he
    | double => exact he.elim
    | single => exact he.elim
  | unary op a ih =>
    -- absolute values and negations are as good as their operand, all others are proper
    have hproper (h : (op.bounds a.bounds).IsProper) : (unary op a).bounds.IsProper := by
      rw [bounds]
      exact isProper_of_constantValue? he h
    by_cases habs : op = .abs
    · subst habs
      exact (ih he hres).imp .abs fun h => hproper h.abs
    by_cases hnegate : op = .negate
    · subst hnegate
      exact (ih he hres).imp .negate fun h => hproper h.negated
    have ha := overFractions_bounds_of (e := a) he (ih he hres)
    exact .inr (hproper (UnaryOp.isProper_bounds ha habs hnegate))
  | binary op a b iha ihb =>
    rw [isResolved, Bool.and_eq_true] at hres
    have ha := overFractions_bounds_of he.1 (iha he.1 hres.1)
    have hb := overFractions_bounds_of he.2 (ihb he.2 hres.2)
    right
    rw [bounds]
    refine isProper_of_constantValue? he ?_
    rw [kind_of_overFractions he.1 hres.1, kind_of_overFractions he.2 hres.2, Kind.combine_self]
    exact op.isProper_bounds ha hb

/-- The ends of the range of an expression over fractions are in order, and neither is NaN, unless
the expression is a NaN constant under absolute values and negations. Of such an expression one end
is NaN. -/
theorem bounds_ordered_iff (he : e.OverFractions) (hres : e.isResolved = true) :
    (e.bounds.min.le e.bounds.max = true ↔ ¬ e.IsSignedNaN) ∧
      ((e.bounds.min.isNaN = true ∨ e.bounds.max.isNaN = true) ↔ e.IsSignedNaN) := by
  by_cases h : e.IsSignedNaN
  · have hd := h.isDegenerate_bounds he
    refine ⟨iff_of_false (fun hle => ?_) (not_not.2 h), iff_of_true hd.isNaN h⟩
    have hproper := hd.overFractions.isProper_iff.2 hle
    have := hd.isNaN
    simp [hproper.isNaN_eq_false] at this
  · have hproper := (isSignedNaN_or_isProper he hres).resolve_left h
    refine ⟨iff_of_true (hproper.overFractions.isProper_iff.1 hproper) h, iff_of_false ?_ h⟩
    simp [hproper.isNaN_eq_false]

/-- A NaN operand does not reach the ends of the range of a product, nor does a NaN coefficient. -/
theorem bounds_ordered_of_nan_operands :
    let e := binary .product (unary .negate (constant (.fraction .nan)))
      (poly (.fraction ⟨[(-1, .nan), (2, .infinite true)]⟩))
    e.bounds.min.le e.bounds.max = true ∧
      ¬ (e.bounds.min.isNaN = true ∨ e.bounds.max.isNaN = true) := by
  intro e
  obtain ⟨hordered, hnan⟩ := bounds_ordered_iff (e := e) (by decide) rfl
  have hsigned : ¬ e.IsSignedNaN := not_isSignedNaN_binary _ _ _
  exact ⟨hordered.2 hsigned, mt hnan.1 hsigned⟩

/-- The range of the constant NaN is no interval, and neither is that of its absolute value. -/
theorem bounds_not_ordered_of_nan_constant :
    let e := constant (.fraction .nan)
    e.OverFractions ∧ e.isResolved = true ∧ e.operators = [] ∧
      e.bounds = ⟨.fraction .nan, .fraction .nan⟩ ∧ e.bounds.min.le e.bounds.max = false ∧
      (unary .abs e).bounds = ⟨.fraction .zero, .fraction .nan⟩ ∧
      (unary .abs e).bounds.min.le (unary .abs e).bounds.max = false := by
  exact ⟨trivial, rfl, rfl, rfl, rfl, rfl, rfl⟩

end Expr

end Formula
