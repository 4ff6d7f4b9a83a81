import Formula.Proofs.Fraction.Rational

/-!
# Remainders

The remainder of a division whose quotient is truncated differs from the dividend by a multiple of the
divisor, is of smaller magnitude than the divisor, and is on the dividend's side of zero. No other number
is (`IsRemainder.eq`). Fractions have this remainder, in lowest terms, wherever the dividend is a number
and the divisor one other than zero (`modulo_is_truncated_remainder`).
-/

namespace Formula

/-! ## Integer parts -/

namespace Extended

variable {x : ℚ} {k : ℤ}

theorem mul_sub_truncate_nonneg (x : ℚ) : 0 ≤ x * (x - truncate x) := by
  unfold truncate
  split_ifs with hx
  · exact mul_nonneg_of_nonpos_of_nonpos hx.le (sub_nonpos.2 (Int.le_ceil x))
  · exact mul_nonneg (not_lt.1 hx) (sub_nonneg.2 (Int.floor_le x))

/-- The integer part of a number is the only integer less than one away from it on the side of zero. -/
theorem eq_truncate (hlt : |x - k| < 1) (hside : 0 ≤ x * (x - k)) : k = truncate x := by
  rw [abs_lt] at hlt
  unfold truncate
  split_ifs with hx
  · have hle : x - k ≤ 0 := nonpos_of_mul_nonneg_right hside hx
    exact (Int.ceil_eq_iff.2 ⟨by linarith, by linarith⟩).symm
  · obtain rfl | hx := (not_lt.1 hx).eq_or_lt
    · -- zero has both sides, but no other integer is near enough
      have hk : |k| < 1 := by
        rw [← abs_lt, zero_sub, abs_neg] at hlt
        exact_mod_cast hlt
      rw [Int.floor_zero, Int.abs_lt_one_iff.1 hk]
    · have hle : 0 ≤ x - k := nonneg_of_mul_nonneg_right hside hx
      exact (Int.floor_eq_iff.2 ⟨by linarith, by linarith⟩).symm

end Extended

/-! ## Remainders of rational numbers -/

/-- The number `r` is what is left of `p` when as many multiples of `q` are taken away as fit in. -/
structure IsRemainder (p q r : ℚ) : Prop where
  exists_multiple : ∃ k : ℤ, p - r = k * q
  abs_lt : |r| < |q|
  /-- It is zero, or it has the sign of `p`. -/
  same_sign : r = 0 ∨ 0 < r * p

variable {p q r : ℚ}

/-- On which side of zero `p` and what is left of it are, read off the quotient. -/
theorem sub_mul_mul_eq (hq : q ≠ 0) (k : ℤ) :
    (p - q * k) * p = q ^ 2 * (p / q * (p / q - k)) := by
  have hp : q * (p / q) = p := mul_div_cancel₀ p hq
  calc (p - q * k) * p = (q * (p / q) - q * k) * (q * (p / q)) := by rw [hp]
    _ = q ^ 2 * (p / q * (p / q - k)) := by ring

theorem isRemainder_truncate (p : ℚ) (hq : q ≠ 0) :
    IsRemainder p q (p - q * Extended.truncate (p / q)) := by
  refine ⟨⟨Extended.truncate (p / q), by ring⟩, Extended.abs_remainder_lt p hq, ?_⟩
  obtain rfl | hp := eq_or_ne p 0
  · left
    rw [zero_div, show Extended.truncate 0 = 0 from Extended.truncate_intCast 0, Int.cast_zero,
      mul_zero, sub_zero]
  · have hside : 0 ≤ (p - q * Extended.truncate (p / q)) * p := by
      rw [sub_mul_mul_eq hq]
      exact mul_nonneg (sq_nonneg q) (Extended.mul_sub_truncate_nonneg (p / q))
    obtain hzero | hpos := hside.eq_or_lt
    · exact .inl ((mul_eq_zero.1 hzero.symm).resolve_right hp)
    · exact .inr hpos

/-- There is one remainder only. -/
theorem IsRemainder.eq (h : IsRemainder p q r) : r = p - q * Extended.truncate (p / q) := by
  have hq : q ≠ 0 := abs_pos.1 ((abs_nonneg r).trans_lt h.abs_lt)
  obtain ⟨k, hk⟩ := h.exists_multiple
  obtain rfl : r = p - q * k := by linarith
  have hlt : |p / q - k| < 1 := by
    have hmul : p - q * k = q * (p / q - k) := by rw [mul_sub, mul_div_cancel₀ p hq]
    have hlt := h.abs_lt
    rw [hmul, abs_mul] at hlt
    exact lt_of_mul_lt_mul_left (by rwa [mul_one]) (abs_nonneg q)
  have hside : 0 ≤ p / q * (p / q - k) := by
    refine nonneg_of_mul_nonneg_right ?_ (sq_pos_of_ne_zero hq)
    rw [← sub_mul_mul_eq hq]
    obtain hzero | hpos := h.same_sign
    · rw [hzero, zero_mul]
    · exact hpos.le
  rw [← Extended.eq_truncate hlt hside]

/-! ## Remainders of fractions -/

namespace Fraction

variable {f g : Fraction}

theorem value_modulo_of_ne_zero (hf : f.WellFormed) (hg : g.WellFormed) (hp : f.value = .finite p)
    (hq : g.value = .finite q) (hzero : q ≠ 0) :
    (f.modulo g).value = .finite (p - q * Extended.truncate (p / q)) := by
  rw [value_modulo hf hg, hp, hq, Extended.modulo_finite, if_neg hzero]

theorem modulo_eq_simplified (hf : f.isFinite = true) (hg : g.isFinite = true)
    (hzero : g.isZero = false) : f.modulo g = (f - g * (f / g).trunc).simplified := by
  obtain ⟨a, n, d, rfl⟩ := exists_eq_finite hf
  obtain ⟨b, m, e, rfl⟩ := exists_eq_finite hg
  rw [modulo_finite, hzero, if_neg Bool.false_ne_true]

/-- The difference that the remainder is made of is not reduced, but the remainder is. -/
theorem inLowestTerms_modulo (hf : f.WellFormed) (hg : g.WellFormed) (hp : f.value = .finite p)
    (hq : g.value = .finite q) (hzero : q ≠ 0) : (f.modulo g).InLowestTerms := by
  have hgzero : g.isZero = false := by
    rw [Bool.eq_false_iff, Ne, isZero_iff hg, hq, Extended.zero_def, Extended.finite.injEq]
    exact hzero
  have hvalue := value_modulo_of_ne_zero hf hg hp hq hzero
  have hwf : (f - g * (f / g).trunc).WellFormed := wellFormed_sub hf
  rw [modulo_eq_simplified (isFinite_iff.2 ⟨p, hp⟩) (isFinite_iff.2 ⟨q, hq⟩) hgzero] at hvalue ⊢
  rw [value_simplified hwf] at hvalue
  exact inLowestTerms_simplified (isRational_of_value hwf hvalue).1

/-- The dividends that are no numbers and the divisors NaN and zero have no remainder. -/
theorem modulo_eq_nan_iff (hf : f.WellFormed) (hg : g.WellFormed) :
    f.modulo g = nan ↔ f.isFinite = false ∨ g.isNaN = true ∨ g.isZero = true := by
  rw [← value_eq_nan_iff, value_modulo hf hg, isNaN_iff, isZero_iff hg, Extended.zero_def]
  cases f with
  | nan => exact iff_of_true (Extended.nan_modulo _) (.inl rfl)
  | infinite a => exact iff_of_true (Extended.infinite_modulo a _) (.inl rfl)
  | finite a n d =>
    rw [value_finite]
    cases g.value with
    | nan => simp
    | infinite b => simp [isFinite]
    | finite q =>
      rw [Extended.modulo_finite]
      split_ifs with hq
      · simp [hq]
      · simp [hq, isFinite]

/-- The remainder of two numbers is the remainder of the division with the quotient truncated, in lowest
terms and whatever the terms of the two are. There is none if the dividend is no number or the divisor is
NaN or zero, and an infinite divisor leaves the dividend as it is. -/
theorem modulo_is_truncated_remainder (hf : f.WellFormed) (hg : g.WellFormed) :
    (∀ p q : ℚ, f.value = .finite p → g.value = .finite q → q ≠ 0 →
      (f.modulo g).InLowestTerms ∧
      (f.modulo g).value = .finite (p - q * Extended.truncate (p / q)) ∧
      ∀ r, (f.modulo g).value = .finite r ↔ IsRemainder p q r) ∧
    (f.modulo g = nan ↔ f.isFinite = false ∨ g.isNaN = true ∨ g.isZero = true) ∧
    ∀ b, f.isFinite = true → g = infinite b → f.modulo g = f := by
  refine ⟨fun p q hp hq hzero => ?_, modulo_eq_nan_iff hf hg, fun b hfin hb => ?_⟩
  · have hvalue := value_modulo_of_ne_zero hf hg hp hq hzero
    refine ⟨inLowestTerms_modulo hf hg hp hq hzero, hvalue, fun r => ?_⟩
    rw [hvalue, Extended.finite.injEq]
    constructor
    · rintro rfl
      exact isRemainder_truncate p hzero
    · exact fun h => h.eq.symm
  · obtain ⟨a, n, d, rfl⟩ := exists_eq_finite hfin
    rw [hb]
    rfl

/-- The remainder `-3 / 2` of `-14 / 4` and `12 / 6`, which are not reduced. -/
theorem modulo_is_truncated_remainder_of_unreduced :
    let f : Fraction := .finite true 14 4
    let g : Fraction := .finite false 12 6
    f.WellFormed ∧ g.WellFormed ∧ f.value = .finite (-7 / 2) ∧ g.value = .finite 2 ∧
      (f.modulo g).InLowestTerms ∧ (f.modulo g).value = .finite (-3 / 2) ∧
      IsRemainder (-7 / 2) 2 (-3 / 2) ∧ f.modulo g ≠ nan ∧ f.modulo (infinite true) = f := by
  intro f g
  have hf : f.value = .finite (-7 / 2) := by norm_num [f, value_finite, signed]
  have hg : g.value = .finite 2 := by norm_num [g, value_finite, signed]
  obtain ⟨hnumbers, hnan, -⟩ := modulo_is_truncated_remainder (f := f) (g := g) (by decide) (by decide)
  obtain ⟨-, -, hinfinite⟩ :=
    modulo_is_truncated_remainder (f := f) (g := infinite true) (by decide) trivial
  obtain ⟨hlowest, hvalue, hremainder⟩ := hnumbers _ _ hf hg two_ne_zero
  have hquotient : Extended.truncate (-7 / 2 / 2) = -1 := by norm_num [Extended.truncate]
  have hvalue : (f.modulo g).value = .finite (-3 / 2) := by
    rw [hvalue, hquotient]
    norm_num
  refine ⟨by decide, by decide, hf, hg, hlowest, hvalue, (hremainder _).1 hvalue, ?_,
    hinfinite true rfl rfl⟩
  rw [Ne, hnan]
  decide

end Fraction

end Formula
