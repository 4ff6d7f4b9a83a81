import Formula.Proofs.Fraction.Value

/-!
# Exact arithmetic

The value of a quotient of integers, also where its denominator is negative or zero, and the main
result on fractions as a whole, `arithmetic_exact`: every operation gives a well-formed fraction, its
value is the exact one, the combinations without a value give NaN, and no result depends on how far
the operands are reduced.
-/

namespace Formula.Fraction

/-! ## Quotients of integers -/

theorem signed_bne_div (a b : Bool) (n d : ℕ) :
    (signed (a != b) n : ℚ) / d = signed a n / signed b d := by
  cases a <;> cases b <;> simp [signed, neg_div, div_neg]

/-- The value of a quotient by its terms, with the conventions for the denominator zero. -/
theorem value_ofParts_eq (a : Bool) (n d : ℕ) :
    (ofParts a n d).value =
      if d = 0 then if n = 0 then .nan else .infinite a else .finite (signed a n / d) := by
  by_cases hd : d = 0
  · subst hd
    by_cases hn : n = 0
    · simp [ofParts, hn]
    · rw [ofParts_zero a hn, if_pos rfl, if_neg hn, value_infinite]
  · rw [if_neg hd, value_ofParts a n hd]

/-- The value of a quotient of integers. The sign of an infinity is that of the numerator. -/
theorem value_ofInts_eq (n d : ℤ) :
    (ofInts n d).value =
      if d = 0 then if n = 0 then .nan else .infinite (decide (n < 0)) else .finite (n / d) := by
  rw [ofInts, value_ofParts_eq]
  by_cases hd : d = 0
  · simp [hd]
  · rw [if_neg (Int.natAbs_ne_zero.2 hd), if_neg hd, signed_bne_div, signed_natAbs, signed_natAbs]

/-! ## All operations -/

/-- What the operations of arithmetic make of two fractions, those of one operand of the first. -/
def results (f g : Fraction) : List Fraction :=
  [f + g, f - g, f * g, f / g, -f, f.abs, f.reciprocal, f.trunc, f.simplified]

variable {f g : Fraction}

theorem wellFormed_results (hf : f.WellFormed) (hg : g.WellFormed) :
    ∀ r ∈ results f g, r.WellFormed := by
  simp only [results, List.forall_mem_cons, List.not_mem_nil, false_implies, implies_true, and_true]
  exact ⟨wellFormed_add f g hf hg, wellFormed_sub hf, wellFormed_mul f g, wellFormed_div f g,
    wellFormed_neg f, wellFormed_abs f, wellFormed_reciprocal f, wellFormed_trunc,
    wellFormed_simplified hf⟩

/-- The values of the results are computed from the values of the operands. -/
theorem values_results (hf : f.WellFormed) (hg : g.WellFormed) :
    (results f g).map value =
      [f.value + g.value, f.value + -g.value, f.value * g.value, f.value * g.value⁻¹, -f.value,
        f.value.abs, f.value⁻¹, f.value.trunc, f.value] := by
  simp only [results, List.map_cons, List.map_nil]
  rw [value_add hf hg, value_sub hf hg, value_mul hf hg, value_div hf hg, value_neg hf, value_abs hf,
    value_reciprocal hf, value_trunc hf, value_simplified hf]

/-! ## Special cases -/

/-- The quotient of rational numbers. -/
theorem value_div_finite {p q : ℚ} (hf : f.WellFormed) (hg : g.WellFormed)
    (hp : f.value = .finite p) (hq : g.value = .finite q) :
    (f / g).value =
      if q = 0 then if p = 0 then .nan else .infinite (decide (p < 0)) else .finite (p / q) := by
  rw [value_div hf hg, hp, hq, Extended.inv_finite]
  by_cases h : q = 0
  · rw [if_pos h, if_pos h, Extended.finite_mul_infinite, Bool.bne_false]
  · rw [if_neg h, if_neg h, Extended.finite_mul, div_eq_mul_inv]

/-- The results for rational operands are the exact ones. -/
theorem values_of_finite {p q : ℚ} (hf : f.WellFormed) (hg : g.WellFormed)
    (hp : f.value = .finite p) (hq : g.value = .finite q) :
    (f + g).value = .finite (p + q) ∧ (f - g).value = .finite (p - q) ∧
      (f * g).value = .finite (p * q) ∧ (-f).value = .finite (-p) ∧ f.abs.value = .finite |p| ∧
      (p ≠ 0 → f.reciprocal.value = .finite p⁻¹) ∧
      f.trunc.value = .finite (Extended.truncate p) ∧ f.simplified.value = .finite p := by
  refine ⟨?_, ?_, ?_, ?_, ?_, fun h => ?_, ?_, ?_⟩
  · rw [value_add hf hg, hp, hq, Extended.finite_add]
  · rw [value_sub hf hg, hp, hq, Extended.neg_finite, Extended.finite_add, sub_eq_add_neg]
  · rw [value_mul hf hg, hp, hq, Extended.finite_mul]
  · rw [value_neg hf, hp, Extended.neg_finite]
  · rw [value_abs hf, hp, Extended.abs_finite]
  · rw [value_reciprocal hf, hp, Extended.inv_finite, if_neg h]
  · rw [value_trunc hf, hp, Extended.trunc]
  · rw [value_simplified hf, hp]

/-- Where an infinite operand leaves no value, and that it divides every number to zero. -/
theorem values_of_infinite {b : Bool} (hf : f.WellFormed) (hg : g.WellFormed)
    (hb : g.value = .infinite b) :
    (f.value = .infinite (!b) → (f + g).value = .nan) ∧
      (f.value = .infinite b → (f - g).value = .nan) ∧
      (f.value = 0 → (f * g).value = .nan ∧ (g * f).value = .nan) ∧
      (∀ a, f.value = .infinite a → (f / g).value = .nan) ∧
      ∀ p, f.value = .finite p → (f / g).value = 0 := by
  refine ⟨fun ha => ?_, fun ha => ?_, fun ha => ?_, fun a ha => ?_, fun p hp => ?_⟩
  · rw [value_add hf hg, ha, hb]
    cases b <;> rfl
  · rw [value_sub hf hg, ha, hb]
    cases b <;> rfl
  · rw [value_mul hf hg, value_mul hg hf, ha, hb]
    exact ⟨rfl, rfl⟩
  · rw [value_div hf hg, ha, hb, Extended.inv_infinite, Extended.infinite_mul_finite, if_pos rfl]
  · rw [value_div hf hg, hp, hb, Extended.inv_infinite, Extended.finite_mul, mul_zero,
      Extended.zero_def]

/-- NaN spreads to every result. -/
theorem values_of_nan (hf : f.WellFormed) (hg : g.WellFormed) :
    (f.value = .nan → ∀ r ∈ results f g, r.value = .nan) ∧
      (g.value = .nan → ∀ r ∈ [f + g, f - g, f * g, f / g], r.value = .nan) := by
  constructor
  · intro hn r hr
    have h := List.mem_map_of_mem (f := value) hr
    rw [values_results hf hg, hn] at h
    simpa [Extended.trunc] using h
  · intro hn
    simp only [List.forall_mem_cons, List.not_mem_nil, false_implies, implies_true, and_true]
    rw [value_add hf hg, value_sub hf hg, value_mul hf hg, value_div hf hg, hn]
    simp

/-- The arithmetic of fractions is exact and keeps them well formed. Quotients of terms and of
integers, and all results of operations on well-formed operands, are well formed. On rational operands
the results are the exact ones; a quotient by zero is an infinity with the sign of the dividend, or NaN
if that is zero too; infinities that have no sum, product or quotient give NaN, as NaN itself does.
Operands of the same values give results of the same values, however far they are reduced. -/
theorem arithmetic_exact (hf : f.WellFormed) (hg : g.WellFormed) :
    (∀ (a : Bool) (n d : ℕ), (ofParts a n d).WellFormed ∧ (ofParts a n d).value =
      if d = 0 then if n = 0 then .nan else .infinite a else .finite (signed a n / d)) ∧
    (∀ n d : ℤ, (ofInts n d).WellFormed ∧ (ofInts n d).value =
      if d = 0 then if n = 0 then .nan else .infinite (decide (n < 0)) else .finite (n / d)) ∧
    (∀ r ∈ results f g, r.WellFormed) ∧
    (∀ p q : ℚ, f.value = .finite p → g.value = .finite q →
      (f + g).value = .finite (p + q) ∧ (f - g).value = .finite (p - q) ∧
      (f * g).value = .finite (p * q) ∧ (-f).value = .finite (-p) ∧ f.abs.value = .finite |p| ∧
      (p ≠ 0 → f.reciprocal.value = .finite p⁻¹) ∧
      f.trunc.value = .finite (Extended.truncate p) ∧ f.simplified.value = .finite p) ∧
    (∀ p q : ℚ, f.value = .finite p → g.value = .finite q → (f / g).value =
      if q = 0 then if p = 0 then .nan else .infinite (decide (p < 0)) else .finite (p / q)) ∧
    (∀ b, g.value = .infinite b →
      (f.value = .infinite (!b) → (f + g).value = .nan) ∧
      (f.value = .infinite b → (f - g).value = .nan) ∧
      (f.value = 0 → (f * g).value = .nan ∧ (g * f).value = .nan) ∧
      (∀ a, f.value = .infinite a → (f / g).value = .nan) ∧
      ∀ p, f.value = .finite p → (f / g).value = 0) ∧
    ((f.value = .nan → ∀ r ∈ results f g, r.value = .nan) ∧
      (g.value = .nan → ∀ r ∈ [f + g, f - g, f * g, f / g], r.value = .nan)) ∧
    ∀ f' g' : Fraction, f'.WellFormed → g'.WellFormed → f'.value = f.value → g'.value = g.value →
      (results f' g').map value = (results f g).map value := by
  refine ⟨fun a n d => ⟨wellFormed_ofParts a n d, value_ofParts_eq a n d⟩,
    fun n d => ⟨wellFormed_ofInts n d, value_ofInts_eq n d⟩, wellFormed_results hf hg,
    fun p q => values_of_finite hf hg, fun p q => value_div_finite hf hg,
    fun b => values_of_infinite hf hg, values_of_nan hf hg, fun f' g' hf' hg' hfv hgv => ?_⟩
  rw [values_results hf hg, values_results hf' hg', hfv, hgv]

/-- The operands `-6 / 8` and `2 / 4`, which are not reduced, and their reduced forms. -/
theorem arithmetic_exact_unreduced :
    let f : Fraction := .finite true 6 8
    let g : Fraction := .finite false 2 4
    (f + g).value = .finite (-1 / 4) ∧ (f / g).value = .finite (-3 / 2) ∧
      f.trunc.value = .finite 0 ∧
      (results (.finite true 3 4) (.finite false 1 2)).map value = (results f g).map value := by
  intro f g
  have hf : f.value = .finite (-3 / 4) := by norm_num [f, value_finite, signed]
  have hg : g.value = .finite (1 / 2) := by norm_num [g, value_finite, signed]
  obtain ⟨-, -, -, hvalues, hdiv, -, -, hsame⟩ :=
    arithmetic_exact (f := f) (g := g) (by decide) (by decide)
  obtain ⟨hadd, -, -, -, -, -, htrunc, -⟩ := hvalues _ _ hf hg
  refine ⟨?_, ?_, ?_, hsame _ _ (by decide) (by decide) ?_ ?_⟩
  · rw [hadd]
    norm_num
  · rw [hdiv _ _ hf hg]
    norm_num
  · rw [htrunc]
    norm_num [Extended.truncate]
  · rw [hf]
    norm_num [value_finite, signed]
  · rw [hg]
    norm_num [value_finite, signed]

end Formula.Fraction
