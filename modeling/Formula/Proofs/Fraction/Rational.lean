import Formula.Proofs.Fraction.Value
import Mathlib.Data.Rat.Lemmas

/-!
# Rational fractions

A fraction that `IsRational` stands for the rational number `toRat`, and arithmetic on such fractions is
that of the rationals. Its lowest terms (`InLowestTerms`) are the numerator and the denominator of this
number (`simplified_eq`).
-/

namespace Formula.Fraction

/-- A well-formed quotient. -/
def IsRational (f : Fraction) : Prop :=
  f.WellFormed ∧ f.isFinite = true

instance : DecidablePred IsRational :=
  fun f => inferInstanceAs (Decidable (f.WellFormed ∧ f.isFinite = true))

/-- The rational number a quotient stands for, and zero for what is none. -/
def toRat : Fraction → ℚ
  | finite negative numerator denominator => signed negative numerator / denominator
  | _ => 0

variable {f g : Fraction}

theorem IsRational.value_eq (h : f.IsRational) : f.value = .finite f.toRat := by
  obtain ⟨a, n, d, rfl⟩ := exists_eq_finite h.2
  rfl

theorem isRational_of_value {q : ℚ} (hf : f.WellFormed) (hv : f.value = .finite q) :
    f.IsRational ∧ f.toRat = q := by
  have h : f.IsRational := ⟨hf, isFinite_iff.2 ⟨q, hv⟩⟩
  rw [h.value_eq, Extended.finite.injEq] at hv
  exact ⟨h, hv⟩

theorem isRational_zero : zero.IsRational ∧ zero.toRat = 0 :=
  isRational_of_value wellFormed_zero value_zero

theorem isRational_one : one.IsRational ∧ one.toRat = 1 :=
  isRational_of_value wellFormed_one value_one

theorem IsRational.neg (hf : f.IsRational) : (-f).IsRational ∧ (-f).toRat = -f.toRat := by
  apply isRational_of_value (wellFormed_neg f)
  rw [value_neg hf.1, hf.value_eq, Extended.neg_finite]

theorem IsRational.add (hf : f.IsRational) (hg : g.IsRational) :
    (f + g).IsRational ∧ (f + g).toRat = f.toRat + g.toRat := by
  apply isRational_of_value (wellFormed_add _ _ hf.1 hg.1)
  rw [value_add hf.1 hg.1, hf.value_eq, hg.value_eq, Extended.finite_add]

theorem IsRational.mul (hf : f.IsRational) (hg : g.IsRational) :
    (f * g).IsRational ∧ (f * g).toRat = f.toRat * g.toRat := by
  apply isRational_of_value (wellFormed_mul f g)
  rw [value_mul hf.1 hg.1, hf.value_eq, hg.value_eq, Extended.finite_mul]

theorem IsRational.beq_iff (hf : f.IsRational) (hg : g.IsRational) :
    (f == g) = true ↔ f.toRat = g.toRat := by
  rw [Fraction.beq_iff hf.1 hg.1, hf.value_eq, hg.value_eq]
  simp

theorem IsRational.isZero_iff (hf : f.IsRational) : f.isZero = true ↔ f.toRat = 0 := by
  rw [Fraction.isZero_iff hf.1, hf.value_eq, Extended.zero_def, Extended.finite.injEq]

theorem IsRational.isNegative_eq (hf : f.IsRational) : f.isNegative = decide (f.toRat < 0) := by
  obtain ⟨a, n, d, rfl⟩ := exists_eq_finite hf.2
  exact isNegative_finite hf.1

/-! ## Lowest terms -/

theorem ofParts_of_wellFormed {a : Bool} {n d : ℕ} (hf : (finite a n d).WellFormed) :
    ofParts a n d = finite a n d := by
  rw [ofParts, if_neg hf.1]
  by_cases hn : n = 0
  · rw [hf.2 hn, Bool.false_and]
  · rw [bne_iff_ne.2 hn, Bool.and_true]

theorem exists_lowest_terms {a : Bool} {n d : ℕ} (hf : (finite a n d).WellFormed) :
    ∃ k l, (finite a n d).simplified = finite a k l ∧ k.Coprime l ∧ l ≠ 0 := by
  have hpos : 0 < d := Nat.pos_of_ne_zero hf.1
  have hgcd : 0 < n.gcd d := Nat.gcd_pos_of_pos_right n hpos
  rw [simplified]
  split_ifs with hdivisor
  · exact ⟨n, d, rfl, hdivisor.resolve_left hgcd.ne', hf.1⟩
  · have hl : d / n.gcd d ≠ 0 := (Nat.div_pos (Nat.gcd_le_right n hpos) hgcd).ne'
    -- only zero has the numerator zero, and zero has no sign
    have hwf : (finite a (n / n.gcd d) (d / n.gcd d)).WellFormed := by
      refine ⟨hl, fun hk => hf.2 ?_⟩
      rw [← Nat.div_mul_cancel (Nat.gcd_dvd_left n d), hk, zero_mul]
    exact ⟨_, _, ofParts_of_wellFormed hwf, Nat.coprime_div_gcd_div_gcd hgcd, hl⟩

/-- A well-formed quotient of numbers without a common divisor. -/
def InLowestTerms (f : Fraction) : Prop :=
  f.WellFormed ∧ ∃ a n d, f = finite a n d ∧ n.Coprime d

theorem inLowestTerms_simplified (hf : f.IsRational) : f.simplified.InLowestTerms := by
  obtain ⟨a, n, d, rfl⟩ := exists_eq_finite hf.2
  obtain ⟨k, l, hsimp, hcop, -⟩ := exists_lowest_terms hf.1
  exact ⟨wellFormed_simplified hf.1, a, k, l, hsimp, hcop⟩

/-- The lowest terms of a fraction are those of the number it stands for. -/
theorem simplified_eq (hf : f.IsRational) :
    f.simplified = finite (decide (f.toRat.num < 0)) f.toRat.num.natAbs f.toRat.den := by
  obtain ⟨a, n, d, rfl⟩ := exists_eq_finite hf.2
  obtain ⟨k, l, hsimp, hcop, hl⟩ := exists_lowest_terms hf.1
  have hwf : (finite a k l).WellFormed := hsimp ▸ wellFormed_simplified hf.1
  have hvalue : (finite a n d).toRat = signed a k / l := by
    have h := value_simplified hf.1
    rw [hsimp, hf.value_eq, value_finite, Extended.finite.injEq] at h
    exact h.symm
  have hlz : (0 : ℤ) < l := by omega
  have hcop' : (signed a k).natAbs.Coprime (l : ℤ).natAbs := by
    rwa [natAbs_signed, Int.natAbs_natCast]
  have hnum : (finite a n d).toRat.num = signed a k := by
    rw [hvalue]
    exact_mod_cast Rat.num_div_eq_of_coprime hlz hcop'
  have hden : (finite a n d).toRat.den = l := by
    rw [hvalue]
    exact_mod_cast Rat.den_div_eq_of_coprime hlz hcop'
  have hsign : decide (signed a k < 0) = a := by
    rw [Bool.eq_iff_iff, decide_eq_true_iff, signed_neg_iff hwf.2]
  rw [hsimp, hnum, hden, natAbs_signed, hsign]

theorem signed_num_div_den (q : ℚ) : (signed (decide (q < 0)) q.num.natAbs : ℚ) / q.den = q := by
  have h := signed_natAbs q.num
  simp only [Rat.num_neg] at h
  rw [h, Rat.num_div_den]

theorem natAbs_num_div_den (q : ℚ) : (q.num.natAbs : ℚ) / q.den = |q| := by
  have hpos : (0 : ℚ) < q.den := by exact_mod_cast q.den_pos
  rw [← abs_signed (decide (q < 0)), ← abs_of_pos hpos, ← abs_div, signed_num_div_den]

/-- The integer part of a multiple of a number, in lowest terms. -/
theorem truncate_mul_natCast (q : ℚ) {n : ℕ} (hn : n ≠ 0) :
    Extended.truncate (q * n) = signed (decide (q < 0)) (q.num.natAbs * n / q.den) := by
  have hwf : (finite (decide (q < 0)) (q.num.natAbs * n) q.den).WellFormed := by
    refine ⟨q.den_ne_zero, fun hzero => ?_⟩
    have hnum := (Nat.mul_eq_zero.1 hzero).resolve_right hn
    rw [Rat.num_eq_zero.1 (Int.natAbs_eq_zero.1 hnum)]
    rfl
  rw [← truncate_signed hwf, signed_mul_natCast, Int.cast_mul, Int.cast_natCast,
    mul_div_right_comm, signed_num_div_den]

theorem signedNumerator?_simplified (hf : f.IsRational) :
    f.simplified.signedNumerator? = some f.toRat.num := by
  rw [simplified_eq hf, signedNumerator?, signed_natAbs]

theorem denominator?_simplified (hf : f.IsRational) :
    f.simplified.denominator? = some f.toRat.den := by
  rw [simplified_eq hf, denominator?]

end Formula.Fraction
