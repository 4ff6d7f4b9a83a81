import Formula.Proofs.Binary.Floating

/-!
# The error of rounding

A quotient is rounded to the nearest whole number of units, so it is off by at most a half
(`abs_roundHalfEven_sub_le`). In units of the last place this is a relative error of
`2 ^ -(fractionBits + 1)`, both for `roundNat` and for quotients that are not too small to have all
bits of a significand (`roundMagnitude_cases`).
-/

namespace Formula

variable {num den : ℕ}

/-! ## Whole units -/

theorem roundHalfEven_bounds (num : ℕ) (hden : 0 < den) :
    2 * (roundHalfEven num den * den) ≤ 2 * num + den ∧
      2 * num ≤ 2 * (roundHalfEven num den * den) + den := by
  have hdivmod := Nat.div_add_mod num den
  have hmod := Nat.mod_lt num hden
  rw [Nat.mul_comm den] at hdivmod
  simp only [roundHalfEven]
  split_ifs with hlow hhigh
  · omega
  · rw [Nat.add_mul, Nat.one_mul]
    omega
  -- a tie
  · rcases Nat.mod_two_eq_zero_or_one (num / den) with h | h
    · rw [h, Nat.add_zero]
      omega
    · rw [h, Nat.add_mul, Nat.one_mul]
      omega

theorem abs_roundHalfEven_sub_le (num : ℕ) (hden : 0 < den) :
    |(roundHalfEven num den : ℚ) - num / den| ≤ 1 / 2 := by
  have hpos : (0 : ℚ) < den := by exact_mod_cast hden
  obtain ⟨hupper, hlower⟩ := roundHalfEven_bounds num hden
  have hupper' : 2 * ((roundHalfEven num den : ℚ) * den) ≤ 2 * num + den := by exact_mod_cast hupper
  have hlower' : 2 * (num : ℚ) ≤ 2 * (roundHalfEven num den * den) + den := by exact_mod_cast hlower
  rw [sub_div' hpos.ne', abs_div, abs_of_pos hpos, div_le_iff₀ hpos, abs_le]
  constructor <;> linarith

theorem abs_roundScaled_sub_le (num : ℕ) (hden : den ≠ 0) (e : ℤ) :
    |(roundScaled num den e : ℚ) * 2 ^ e - num / den| ≤ 2 ^ e / 2 := by
  have hunit := two_zpow_pos e
  have hden' : 0 < den * Nat.pow 2 e.toNat :=
    Nat.mul_pos (Nat.pos_of_ne_zero hden) (Nat.two_pow_pos _)
  have hquot : ((num * Nat.pow 2 (-e).toNat : ℕ) : ℚ) / (den * Nat.pow 2 e.toNat : ℕ) * 2 ^ e =
      num / den := by
    have hpos : (den : ℚ) ≠ 0 := by exact_mod_cast hden
    rw [two_zpow_eq, Nat.pow_eq, Nat.pow_eq]
    push_cast
    field_simp
  have h := abs_roundHalfEven_sub_le (num * Nat.pow 2 (-e).toNat) hden'
  calc |(roundScaled num den e : ℚ) * 2 ^ e - num / den|
      = |(roundScaled num den e : ℚ) -
          (num * Nat.pow 2 (-e).toNat : ℕ) / (den * Nat.pow 2 e.toNat : ℕ)| * 2 ^ e := by
        rw [← hquot, ← sub_mul, abs_mul, abs_of_pos hunit]
    _ ≤ 1 / 2 * 2 ^ e := mul_le_mul_of_nonneg_right h hunit.le
    _ = 2 ^ e / 2 := by ring

/-! ## Numbers of a format -/

namespace BinaryFormat

variable {f : BinaryFormat}

/-- Rounding a natural number to the bits of a significand. -/
theorem abs_roundNat_sub_le (f : BinaryFormat) (n : ℕ) :
    |(f.roundNat n : ℚ) - n| ≤ n / 2 ^ (f.fractionBits + 1) := by
  have hround : f.roundNat n = roundHalfEven n (2 ^ (n.log2 - f.fractionBits)) *
      2 ^ (n.log2 - f.fractionBits) := rfl
  by_cases hbits : n.log2 ≤ f.fractionBits
  · -- all bits fit, and the unit is one
    have hone := roundHalfEven_mul n Nat.one_pos
    rw [mul_one] at hone
    rw [hround, Nat.sub_eq_zero_of_le hbits, pow_zero, hone, mul_one, sub_self, abs_zero]
    positivity
  · obtain ⟨k, hk⟩ := Nat.exists_eq_add_of_lt (lt_of_not_ge hbits)
    have hunit : (0 : ℚ) < (2 ^ (k + 1) : ℕ) := by positivity
    have hsub : n.log2 - f.fractionBits = k + 1 := by omega
    have hn : n ≠ 0 := by
      rintro rfl
      rw [Nat.log2_zero] at hk
      omega
    have hlow : (2 : ℚ) ^ (f.fractionBits + k + 1) ≤ n := by
      rw [← hk]
      exact_mod_cast Nat.log2_self_le hn
    have hquot : (n : ℚ) / (2 ^ (k + 1) : ℕ) * (2 ^ (k + 1) : ℕ) = n := div_mul_cancel₀ _ hunit.ne'
    have h := abs_roundHalfEven_sub_le n (Nat.two_pow_pos (k + 1))
    calc |(f.roundNat n : ℚ) - n|
        = |(roundHalfEven n (2 ^ (k + 1)) : ℚ) - n / (2 ^ (k + 1) : ℕ)| * (2 ^ (k + 1) : ℕ) := by
          rw [hround, hsub, ← abs_of_pos hunit, ← abs_mul, sub_mul, abs_of_pos hunit, hquot,
            Nat.cast_mul]
      _ ≤ 1 / 2 * (2 ^ (k + 1) : ℕ) := mul_le_mul_of_nonneg_right h hunit.le
      _ = 2 ^ (f.fractionBits + k + 1) / 2 ^ (f.fractionBits + 1) := by
          rw [add_right_comm, pow_add 2 (f.fractionBits + 1), mul_div_cancel_left₀ _ (by positivity),
            Nat.cast_pow, Nat.cast_ofNat, pow_succ]
          ring
      _ ≤ n / 2 ^ (f.fractionBits + 1) := div_le_div_of_nonneg_right hlow (by positivity)

/-- Rounding to the binade of a quotient gives a full significand, with a carry out of it at most. -/
theorem significand_bounds {e : ℤ} (hden : den ≠ 0)
    (hlow : (2 : ℚ) ^ (f.fractionBits + e) ≤ num / den)
    (hhigh : (num / den : ℚ) < 2 ^ (f.fractionBits + e + 1)) :
    2 ^ f.fractionBits ≤ roundScaled num den e ∧
      roundScaled num den e ≤ 2 ^ (f.fractionBits + 1) := by
  have hunit := two_zpow_pos e
  obtain ⟨hbelow, habove⟩ := abs_le.1 (abs_roundScaled_sub_le num hden e)
  generalize roundScaled num den e = m at hbelow habove ⊢
  constructor
  · by_contra hlt
    have hle : ((m + 1 : ℕ) : ℚ) * 2 ^ e ≤ 2 ^ f.fractionBits * 2 ^ e :=
      mul_le_mul_of_nonneg_right (by exact_mod_cast lt_of_not_ge hlt) hunit.le
    rw [← zpow_natCast, ← zpow_add₀ two_ne_zero] at hle
    push_cast at hle
    linarith
  · by_contra hlt
    have hle : (2 : ℚ) ^ (f.fractionBits + 1) * 2 ^ e + 2 ^ e ≤ m * 2 ^ e := by
      rw [← add_one_mul]
      exact mul_le_mul_of_nonneg_right (by exact_mod_cast lt_of_not_ge hlt) hunit.le
    rw [← zpow_natCast, ← zpow_add₀ two_ne_zero, Nat.cast_succ, add_right_comm] at hle
    linarith

/-- A significand that is one unit too great is the least one of the next exponent. -/
theorem exists_carried {m : ℕ} {e : ℤ} (hlow : 2 ^ f.fractionBits ≤ m)
    (hhigh : m ≤ 2 ^ (f.fractionBits + 1)) (he : f.minExponent ≤ e) :
    ∃ n k, 2 ^ f.fractionBits ≤ n ∧ n < 2 ^ (f.fractionBits + 1) ∧ e ≤ k ∧ k ≤ e + 1 ∧
      f.magnitudeWord n k = f.magnitudeWord m e ∧ (n : ℚ) * 2 ^ k = m * 2 ^ e := by
  by_cases hcarry : m = 2 ^ (f.fractionBits + 1)
  · have hnext : (e + 1 - f.minExponent).toNat = (e - f.minExponent).toNat + 1 := by omega
    refine ⟨2 ^ f.fractionBits, e + 1, le_rfl, pow_lt_pow_right₀ one_lt_two (Nat.lt_succ_self _),
      by omega, le_rfl, ?_, ?_⟩
    · rw [magnitudeWord, magnitudeWord, hnext, hcarry, pow_succ]
      ring
    · rw [hcarry, zpow_add_one₀ two_ne_zero, pow_succ]
      push_cast
      ring
  · exact ⟨m, e, hlow, lt_of_le_of_ne hhigh hcarry, le_rfl, by omega, rfl, rfl⟩

/-- The word of a full significand, unless it is beyond the greatest number of the format. -/
theorem canonical_or_infinityWord_le {m : ℕ} {e : ℤ} (hlow : 2 ^ f.fractionBits ≤ m)
    (hhigh : m < 2 ^ (f.fractionBits + 1)) (he : f.minExponent ≤ e) :
    f.Canonical m e ∨
      f.infinityWord ≤ f.magnitudeWord m e ∧ f.minExponent + f.specialExponent ≤ e + 1 := by
  by_cases hlt : e + 1 < f.minExponent + f.specialExponent
  · exact .inl ⟨hhigh, he, .inr hlow, hlt⟩
  · have hsteps : f.specialExponent ≤ (e - f.minExponent).toNat + 1 := by omega
    refine .inr ⟨?_, by omega⟩
    calc f.infinityWord ≤ ((e - f.minExponent).toNat + 1) * 2 ^ f.fractionBits :=
          Nat.mul_le_mul_right _ hsteps
      _ ≤ f.magnitudeWord m e := by
          rw [Nat.add_mul, Nat.one_mul, magnitudeWord]
          omega

/-- A quotient that is not too small is rounded to the word of a number whose relative error is at most
`2 ^ -(fractionBits + 1)`, or to infinity if it is beyond the greatest power of two of the format. -/
theorem roundMagnitude_cases (hnum : num ≠ 0) (hden : den ≠ 0)
    (hlow : (2 : ℚ) ^ (f.minExponent + f.fractionBits) ≤ num / den) :
    (f.roundMagnitude num den = f.infinityWord ∧
        (2 : ℚ) ^ (f.minExponent + f.specialExponent + f.fractionBits - 2) ≤ num / den) ∨
      ∃ m e, f.Canonical m e ∧ f.roundMagnitude num den = f.magnitudeWord m e ∧
        |(m : ℚ) * 2 ^ e - num / den| ≤ num / den / 2 ^ (f.fractionBits + 1) := by
  obtain ⟨hlog, hlog'⟩ := ratioLog2_bounds hnum hden
  have hmin : f.minExponent ≤ ratioLog2 num den - f.fractionBits := by
    have := (zpow_lt_zpow_iff_right₀ one_lt_two).1 (hlow.trans_lt hlog')
    omega
  obtain ⟨e, he⟩ : ∃ e, e = ratioLog2 num den - f.fractionBits := ⟨_, rfl⟩
  have hexp : ratioLog2 num den = f.fractionBits + e := by omega
  rw [← he] at hmin
  rw [hexp] at hlog hlog'
  obtain ⟨m, hm⟩ : ∃ m, m = roundScaled num den e := ⟨_, rfl⟩
  have herror := abs_roundScaled_sub_le num hden e
  rw [← hm] at herror
  have hhalf : (2 : ℚ) ^ e / 2 ≤ num / den / 2 ^ (f.fractionBits + 1) := by
    rw [div_le_div_iff₀ two_pos (by positivity), pow_succ, ← mul_assoc]
    refine mul_le_mul_of_nonneg_right ?_ two_pos.le
    rwa [mul_comm, ← zpow_natCast, ← zpow_add₀ two_ne_zero]
  obtain ⟨hmlow, hmhigh⟩ := significand_bounds hden hlog hlog'
  rw [← hm] at hmlow hmhigh
  -- past the greatest number the word is cut to that of infinity
  have hword : f.roundMagnitude num den = min (f.magnitudeWord m e) f.infinityWord := by
    simp only [roundMagnitude, if_neg hnum, ← he, max_eq_left hmin, ← hm, Nat.pow_eq, magnitudeWord]
  obtain ⟨n, k, hnlow, hnhigh, hke, hke', hmag, hvalue⟩ := exists_carried hmlow hmhigh hmin
  rw [← hmag] at hword
  obtain hc | ⟨hinf, hlarge⟩ := canonical_or_infinityWord_le hnlow hnhigh (hmin.trans hke)
  · refine .inr ⟨n, k, hc, ?_, ?_⟩
    · rw [hword]
      exact min_eq_left hc.magnitudeWord_lt.le
    · rw [hvalue]
      exact herror.trans hhalf
  · refine .inl ⟨?_, ?_⟩
    · rw [hword]
      exact min_eq_right hinf
    · exact (zpow_le_zpow_right₀ one_le_two (by omega)).trans hlog

end BinaryFormat

namespace Floating

/-- A quotient that is not too small is rounded to a 64-bit number with a relative error of at most
`2 ^ -53`, or to infinity if it is at least `2 ^ 1023`. -/
theorem value_ofRatio_cases (a : Bool) (hnum : num ≠ 0) (hden : den ≠ 0)
    (hlow : (2 : ℚ) ^ (-1022 : ℤ) ≤ num / den) :
    (value (ofRatio a num den : Float) = .infinite a ∧ (2 : ℚ) ^ 1023 ≤ num / den) ∨
      ∃ q : ℚ, value (ofRatio a num den : Float) = .finite (if a then -q else q) ∧
        |q - num / den| ≤ num / den / 2 ^ 53 := by
  have hratio : (ofRatio a num den : Float) =
      ofWord (BinaryFormat.double.withSign a (BinaryFormat.double.roundMagnitude num den)) := rfl
  obtain ⟨hword, hlarge⟩ | ⟨m, e, hc, hword, herror⟩ :=
    BinaryFormat.roundMagnitude_cases (f := .double) hnum hden hlow
  · refine .inl ⟨?_, hlarge⟩
    rw [hratio, hword]
    exact value_infinity a
  · refine .inr ⟨m * 2 ^ e, ?_, herror⟩
    have hlt := hc.magnitudeWord_lt.trans BinaryFormat.double.infinityWord_lt
    rw [value, hratio, hword, decode_ofWord a hlt (hc.decode_withSign a) Binary.noConfusion,
      Binary.value, Extended.finite.injEq]
    cases a with
    | false => rfl
    | true => simp [Fraction.signed]

end Floating

end Formula
