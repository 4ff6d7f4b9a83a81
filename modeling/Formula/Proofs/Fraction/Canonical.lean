import Formula.Proofs.Fraction.Rational

/-!
# The canonical form of a fraction

The lowest terms of a fraction are equal to it, and fractions of one value have one form in lowest terms
(`simplified_eq_iff`). So `simplified` picks one fraction of every value, and fractions other than NaN are
equal if and only if it picks the same one for them (`simplified_is_canonical_form`). Products always
have this form.
-/

namespace Formula.Fraction

variable {f g : Fraction}

/-- The lowest terms depend on the value alone. -/
theorem simplified_eq_of_value_eq (hf : f.WellFormed) (hg : g.WellFormed) (h : f.value = g.value) :
    f.simplified = g.simplified := by
  cases f with
  | finite a n d =>
    have hrat : (finite a n d).IsRational := ⟨hf, rfl⟩
    obtain ⟨hrat', hq⟩ := isRational_of_value hg (h.symm.trans hrat.value_eq)
    rw [simplified_eq hrat, simplified_eq hrat', hq]
  | infinite a =>
    cases g with
    | finite b m e => cases h
    | infinite b =>
      cases h
      rfl
    | nan => cases h
  | nan =>
    cases g with
    | finite b m e => cases h
    | infinite b => cases h
    | nan => rfl

theorem simplified_eq_iff (hf : f.WellFormed) (hg : g.WellFormed) :
    f.simplified = g.simplified ↔ f.value = g.value := by
  constructor
  · intro h
    rw [← value_simplified hf, h, value_simplified hg]
  · exact simplified_eq_of_value_eq hf hg

/-- Lowest terms are not reduced any further. -/
theorem simplified_simplified (hf : f.WellFormed) : f.simplified.simplified = f.simplified :=
  simplified_eq_of_value_eq (wellFormed_simplified hf) hf (value_simplified hf)

theorem simplified_of_isZero (hf : f.WellFormed) (h : f.isZero = true) : f.simplified = zero := by
  have hvalue : f.value = zero.value := by rw [(isZero_iff hf).1 h, value_zero]
  rw [simplified_eq_of_value_eq hf wellFormed_zero hvalue]
  rfl

theorem simplified_beq_iff (hf : f.WellFormed) : (f.simplified == f) = true ↔ f ≠ nan := by
  rw [beq_iff (wellFormed_simplified hf) hf, value_simplified hf, and_iff_right rfl, Ne,
    value_eq_nan_iff]

theorem beq_iff_simplified_eq (hf : f.WellFormed) (hg : g.WellFormed) (hn : f ≠ nan) :
    (f == g) = true ↔ f.simplified = g.simplified := by
  rw [beq_iff hf hg, simplified_eq_iff hf hg]
  exact and_iff_left (value_eq_nan_iff.not.2 hn)

/-- A product is in lowest terms whatever the terms of the factors are. -/
theorem simplified_mul (f g : Fraction) : (f * g).simplified = f * g := by
  cases f with
  | nan => rfl
  | infinite a =>
    cases g with
    | nan => rfl
    | infinite b => rfl
    | finite b m e =>
      rw [infinite_mul_finite]
      split_ifs <;> rfl
  | finite a n d =>
    cases g with
    | nan => rfl
    | infinite b =>
      rw [finite_mul_infinite]
      split_ifs <;> rfl
    | finite b m e => exact simplified_simplified (wellFormed_ofParts (a != b) (n * m) (d * e))

/-- The lowest terms of a fraction are well formed and equal to it, unless it is NaN; they have no common
divisor, those of zero are `0 / 1`, and they stay as they are when they are reduced once more. Fractions
other than NaN are equal if and only if their lowest terms are identical. -/
theorem simplified_is_canonical_form (hf : f.WellFormed) (hg : g.WellFormed) :
    f.simplified.WellFormed ∧ ((f.simplified == f) = true ↔ f ≠ nan) ∧
      (f.isFinite = true → f.simplified.InLowestTerms) ∧
      (f.isZero = true → f.simplified = zero) ∧
      f.simplified.simplified = f.simplified ∧
      (f ≠ nan → g ≠ nan → ((f == g) = true ↔ f.simplified = g.simplified)) := by
  refine ⟨wellFormed_simplified hf, simplified_beq_iff hf, fun hfinite => ?_,
    simplified_of_isZero hf, simplified_simplified hf, fun hn _ => ?_⟩
  · exact inLowestTerms_simplified ⟨hf, hfinite⟩
  · exact beq_iff_simplified_eq hf hg hn

/-- The fractions `-6 / 8` and `-9 / 12` are equal and have the lowest terms `-3 / 4`. The zero `0 / 5`
has the lowest terms `0 / 1`. -/
theorem simplified_is_canonical_form_of_equals :
    (finite true 6 8).WellFormed ∧ (finite true 9 12).WellFormed ∧ (finite false 0 5).WellFormed ∧
      (finite true 6 8).simplified = finite true 3 4 ∧
      (finite true 9 12).simplified = finite true 3 4 ∧
      (finite true 6 8 == finite true 9 12) = true ∧ (finite true 3 4).InLowestTerms ∧
      (finite false 0 5).simplified = zero ∧ (nan.simplified == nan) = false := by
  have hterms : (finite true 6 8).simplified = finite true 3 4 := by decide
  have hterms' : (finite true 9 12).simplified = finite true 3 4 := by decide
  obtain ⟨-, -, hlowest, -, -, hequal⟩ :=
    simplified_is_canonical_form (f := finite true 6 8) (g := finite true 9 12) (by decide) (by decide)
  obtain ⟨-, -, -, hzero, -, -⟩ :=
    simplified_is_canonical_form (f := finite false 0 5) (g := nan) (by decide) trivial
  obtain ⟨-, hnan, -⟩ := simplified_is_canonical_form (f := nan) (g := nan) trivial trivial
  refine ⟨by decide, by decide, by decide, hterms, hterms', ?_, hterms ▸ hlowest rfl, hzero rfl, ?_⟩
  · rw [hequal (by decide) (by decide), hterms, hterms']
  · rw [Bool.eq_false_iff, Ne, hnan]
    exact not_not.2 rfl

end Formula.Fraction
