import Formula.Proofs.Bounds
import Formula.Proofs.Laurent.Value
import Mathlib.Algebra.Group.Int.Even

/-!
# The range of a polynomial

The range of a term `c * x ^ p` is spanned by its limits at zero and at the infinities. At every
point, also at zero, at the infinities and at NaN, the value of the term is NaN or lies between two
of these limits (`holds_termBounds`), and the value of a polynomial is NaN or the sum of numbers of
the ranges of its terms (`holds_bounds`).
-/

namespace Formula

namespace Extended

theorem nonneg_iff {v : Extended} (h : v ≠ nan) : 0 ≤ v ↔ 0 ≤ v.toEReal := by
  rw [le_iff_toEReal (by simp [zero_def]) h, zero_def, toEReal, Rat.cast_zero, EReal.coe_zero]

theorem nonpos_iff {v : Extended} (h : v ≠ nan) : v ≤ 0 ↔ v.toEReal ≤ 0 := by
  rw [le_iff_toEReal h (by simp [zero_def]), zero_def, toEReal, Rat.cast_zero, EReal.coe_zero]

theorem mul_nonneg {v w : Extended} (hv : 0 ≤ v) (hw : 0 ≤ w) (h : v * w ≠ nan) : 0 ≤ v * w := by
  obtain ⟨hvn, hwn⟩ := ne_nan_of_mul h
  rw [nonneg_iff hvn] at hv
  rw [nonneg_iff hwn] at hw
  rw [nonneg_iff h, toEReal_mul h]
  exact Left.mul_nonneg hv hw

theorem mul_nonpos {v w : Extended} (hv : v ≤ 0) (hw : 0 ≤ w) (h : v * w ≠ nan) : v * w ≤ 0 := by
  obtain ⟨hvn, hwn⟩ := ne_nan_of_mul h
  rw [nonpos_iff hvn] at hv
  rw [nonneg_iff hwn] at hw
  rw [nonpos_iff h, toEReal_mul h]
  exact mul_nonpos_of_nonpos_of_nonneg hv hw

theorem inv_nonneg {v : Extended} (h : 0 ≤ v) : 0 ≤ v⁻¹ := by
  rw [zero_def] at h ⊢
  rcases v with q | (_ | _) | _
  · rw [inv_finite]
    split_ifs
    · simp
    · simpa using h
  · simp
  · simp at h
  · simp at h

/-- Even powers are not negative. -/
theorem zpow_nonneg {v : Extended} {p : ℤ} (hp : Even p) (h : v.zpow p ≠ nan) : 0 ≤ v.zpow p := by
  have hpow : v ^ p.natAbs ≠ nan → 0 ≤ v ^ p.natAbs := by
    intro h
    rw [zero_def]
    rcases v with q | a | _
    · rw [finite_pow, finite_le]
      exact (Int.natAbs_even.2 hp).pow_nonneg q
    · cases hn : p.natAbs with
      | zero => simp [one_def]
      | succ k =>
        have hk : (k % 2 == 0) = false := by
          have := Nat.even_iff.1 (Int.natAbs_even.2 hp)
          simp only [beq_eq_false_iff_ne, ne_eq]
          omega
        rw [infinite_pow, hk, Bool.and_false]
        simp
    · cases hn : p.natAbs with
      | zero => simp [one_def]
      | succ k => simp [hn, nan_pow] at h
  unfold zpow at h ⊢
  split_ifs at h ⊢ with hn
  · exact inv_nonneg (hpow (inv_ne_nan.1 h))
  · exact hpow h

end Extended

namespace Fraction

theorem nonpos_of_isNegative {f : Fraction} (hf : f.WellFormed) (h : f.isNegative = true) :
    f.value ≤ 0 := by
  cases f with
  | nan => cases h
  | infinite a =>
    cases h
    simp [Extended.zero_def]
  | finite a n d =>
    rw [isNegative_finite hf, decide_eq_true_iff] at h
    rw [value_finite, Extended.zero_def, Extended.finite_le]
    exact h.le

theorem nonneg_of_not_isNegative {f : Fraction} (hf : f.WellFormed) (hn : f.value ≠ .nan)
    (h : f.isNegative = false) : 0 ≤ f.value := by
  cases f with
  | nan => simp at hn
  | infinite a =>
    cases h
    simp [Extended.zero_def]
  | finite a n d =>
    rw [isNegative_finite hf, decide_eq_false_iff_not, not_lt] at h
    rw [value_finite, Extended.zero_def, Extended.finite_le]
    exact h

end Fraction

namespace Laurent

/-! ## One term -/

theorem signedInfinity_fraction (negative : Bool) :
    (signedInfinity negative : Fraction) = .infinite negative := by
  cases negative <;> rfl

/-- Between zero and an infinity lies everything of one sign, and between zero and both infinities
everything. -/
theorem holds_of_limits {cs : List Fraction} {w : Extended} (s odd : Bool)
    (hwf : ∀ f ∈ cs, f.WellFormed) (h₀ : Fraction.zero ∈ cs) (h₁ : .infinite s ∈ cs)
    (h₂ : .infinite (s != odd) ∈ cs) (hw : w ≠ .nan)
    (hs : odd = false → if s then w ≤ 0 else 0 ≤ w) :
    (Bounds.ofCandidates .fraction (cs.map .fraction)).Holds w := by
  have hmem : ∀ {f}, f ∈ cs → f.value ∈ cs.map Fraction.value := List.mem_map_of_mem
  refine Bounds.holds_ofCandidates cs _ hwf rfl hw fun _ => ?_
  cases odd with
  | true =>
    cases s with
    | true => exact ⟨⟨_, hmem h₁, by simpa using hw⟩, _, hmem h₂, by simpa using hw⟩
    | false => exact ⟨⟨_, hmem h₂, by simpa using hw⟩, _, hmem h₁, by simpa using hw⟩
  | false =>
    cases s with
    | true => exact ⟨⟨_, hmem h₁, by simpa using hw⟩, _, hmem h₀, by simpa using hs rfl⟩
    | false => exact ⟨⟨_, hmem h₀, by simpa using hs rfl⟩, _, hmem h₁, by simpa using hw⟩

theorem monomial_eq_zero {c : Fraction} (p : ℤ) (h : c.isZero = true) : monomial c p = ⟨[]⟩ := by
  have : Scalar.isZero c = true := h
  simp [monomial, ofTerms, upsert, dropZeros, this]

theorem monomial_eq {c : Fraction} (p : ℤ) (h : c.isZero = false) : monomial c p = ⟨[(p, c)]⟩ :=
  congrArg Laurent.mk (dropZeros_singleton p h)

theorem coefficient_term (c : Fraction) (p i : ℤ) :
    (⟨[(p, c)]⟩ : Laurent Fraction).coefficient i = if i = p then c else .zero := by
  by_cases h : i = p
  · simp [coefficient, h]
  · simp only [coefficient, List.lookup_cons, beq_eq_false_iff_ne.2 h, if_neg h]
    rfl

theorem limitAtInfinity_term (c : Fraction) (p : ℤ) (fromBelow : Bool) :
    (⟨[(p, c)]⟩ : Laurent Fraction).limitAtInfinity fromBelow =
      if 0 < p then .infinite (c.isNegative != (fromBelow && p % 2 != 0))
      else if 0 = p then c else .zero := by
  have hlargest : (⟨[(p, c)]⟩ : Laurent Fraction).largestPower = p := rfl
  rw [limitAtInfinity, hlargest, leadingCoefficient, hlargest, coefficient_term, if_pos rfl,
    constantTerm, coefficient_term, signedInfinity_fraction]
  rfl

theorem limitAtZero_term (c : Fraction) (p : ℤ) (fromBelow : Bool) :
    (⟨[(p, c)]⟩ : Laurent Fraction).limitAtZero fromBelow =
      if p < 0 then .infinite (c.isNegative != (fromBelow && p % 2 != 0))
      else if 0 = p then c else .zero := by
  have hsmallest : (⟨[(p, c)]⟩ : Laurent Fraction).smallestPower = p := rfl
  rw [limitAtZero, hsmallest, coefficient_term, if_pos rfl, constantTerm, coefficient_term,
    signedInfinity_fraction]
  rfl

/-- The limits of a term that are candidates for the ends of its range. -/
def limits (p : ℤ) (c : Fraction) : List Fraction :=
  [(monomial c p).limitAtInfinity false, (monomial c p).limitAtInfinity true,
    (monomial c p).limitAtZero false, (monomial c p).limitAtZero true]

theorem termBounds_eq (p : ℤ) (c : Fraction) :
    termBounds p c = Bounds.ofCandidates .fraction ((limits p c).map .fraction) := rfl

/-- The range of a term holds its values. -/
theorem holds_termBounds {c : Fraction} {p : ℤ} {v : Extended} (hc : c.WellFormed)
    (h : c.value * v.zpow p ≠ .nan) : (termBounds p c).Holds (c.value * v.zpow p) := by
  rw [termBounds_eq]
  cases hz : c.isZero with
  | true =>
    have hlim : limits p c = [.zero, .zero, .zero, .zero] := by
      rw [limits, monomial_eq_zero p hz]
      rfl
    have hv : c.value * v.zpow p = 0 := by
      rw [(Fraction.isZero_iff hc).1 hz] at h ⊢
      rw [Extended.zero_def] at h ⊢
      generalize v.zpow p = w at h ⊢
      cases w <;> simp at h ⊢
    rw [hlim, hv]
    refine Bounds.holds_ofCandidates _ [0, 0, 0, 0] ?_ ?_ ?_ fun _ => ?_
    · simp [Fraction.wellFormed_zero]
    · simp
    · simp [Extended.zero_def]
    · simp [Extended.zero_def]
  | false =>
    have hsign : (p % 2 != 0) = false →
        if c.isNegative then c.value * v.zpow p ≤ 0 else 0 ≤ c.value * v.zpow p := by
      intro hp
      have heven : Even p := Int.even_iff.2 (by simpa using hp)
      obtain ⟨hcn, hvn⟩ := Extended.ne_nan_of_mul h
      have hpos := Extended.zpow_nonneg heven hvn
      split_ifs with hneg
      · exact Extended.mul_nonpos (Fraction.nonpos_of_isNegative hc hneg) hpos h
      · exact Extended.mul_nonneg
          (Fraction.nonneg_of_not_isNegative hc hcn (Bool.eq_false_iff.2 hneg)) hpos h
    have hlim : limits p c = [(⟨[(p, c)]⟩ : Laurent Fraction).limitAtInfinity false,
        (⟨[(p, c)]⟩ : Laurent Fraction).limitAtInfinity true,
        (⟨[(p, c)]⟩ : Laurent Fraction).limitAtZero false,
        (⟨[(p, c)]⟩ : Laurent Fraction).limitAtZero true] := by
      rw [limits, monomial_eq p hz]
    simp only [limitAtInfinity_term, limitAtZero_term] at hlim
    rcases lt_trichotomy p 0 with hp | rfl | hp
    · rw [if_neg hp.not_gt, if_neg hp.not_gt, if_neg hp.ne', if_pos hp, if_pos hp] at hlim
      rw [hlim]
      exact holds_of_limits c.isNegative (p % 2 != 0)
        (by simp [Fraction.wellFormed_zero, Fraction.wellFormed_infinite]) (by simp) (by simp)
        (by simp) h hsign
    · have hone : v.zpow 0 = 1 := by simp [Extended.zpow]
      rw [hone, mul_one] at h ⊢
      rw [hlim]
      refine Bounds.holds_ofCandidates _ [c.value, c.value, c.value, c.value] ?_ ?_ h
        fun _ => ?_
      · simpa using hc
      · simp
      · have := Extended.le_refl h
        simp [this]
    · rw [if_pos hp, if_pos hp, if_neg hp.not_gt, if_neg hp.ne, if_neg hp.not_gt] at hlim
      rw [hlim]
      exact holds_of_limits c.isNegative (p % 2 != 0)
        (by simp [Fraction.wellFormed_zero, Fraction.wellFormed_infinite]) (by simp) (by simp)
        (by simp) h hsign

/-! ## All terms -/

theorem bounds_cons (t : ℤ × Fraction) (ts : List (ℤ × Fraction)) :
    bounds ⟨t :: ts⟩ = (bounds ⟨ts⟩).sum (termBounds t.1 t.2) := by
  simp only [bounds, descending, List.reverse_cons, List.foldl_append, List.foldl_cons,
    List.foldl_nil]

/-- The range of a polynomial holds its values. -/
theorem holds_bounds {p : Laurent Fraction} {v : Extended} (hp : p.WellFormed)
    (h : p.valueAt v ≠ .nan) : p.bounds.Holds (p.valueAt v) := by
  obtain ⟨ts⟩ := p
  induction ts with
  | nil =>
    have hzero := Bounds.holds_point Fraction.wellFormed_zero (by simp [Extended.zero_def])
    rwa [Fraction.value_zero] at hzero
  | cons t ts ih =>
    have hsum : valueAt ⟨t :: ts⟩ v = valueAt ⟨ts⟩ v + t.2.value * v.zpow t.1 := by
      rw [valueAt, List.map_cons, List.sum_cons, add_comm, valueAt]
    rw [hsum] at h
    obtain ⟨hts, ht⟩ := Extended.ne_nan_of_add h
    rw [hsum, bounds_cons]
    exact Bounds.holds_sum (ih (fun u hu => hp u (List.mem_cons_of_mem t hu)) hts)
      (holds_termBounds (hp t List.mem_cons_self) ht) h

end Laurent

end Formula
