import Formula.Proofs.Fraction.Value
import Formula.Value

/-!
# The order of fractions

Fractions are compared by their integer parts and then by the remainders. `compare?_eq` shows that
this is the order of the values, and the comparisons of `Value` follow from it. So whatever holds of
the order of the extended reals holds of fractions other than NaN, in lowest terms or not
(`order_total_and_transitive`).
-/

namespace Formula

namespace Extended

theorem compare?_of_lt {p q : ℚ} (h : p < q) : (finite p).compare? (finite q) = some .lt := by
  simp [compare?, h.le, h]

theorem compare?_of_gt {p q : ℚ} (h : q < p) : (finite p).compare? (finite q) = some .gt := by
  simp [compare?, h.le, h]

theorem compare?_self (q : ℚ) : (finite q).compare? (finite q) = some .eq := by
  simp [compare?]

theorem compare?_eq_gt_iff {v w : Extended} (hv : v ≠ nan) (hw : w ≠ nan) :
    v.compare? w = some .gt ↔ ¬ v ≤ w := by
  have h := Extended.le_total hv hw
  unfold compare?
  split_ifs <;> simp_all

theorem compare?_eq_lt_iff {v w : Extended} (hv : v ≠ nan) (hw : w ≠ nan) :
    v.compare? w = some .lt ↔ ¬ w ≤ v := by
  have h := Extended.le_total hv hw
  unfold compare?
  split_ifs <;> simp_all

theorem le_iff_compare? {v w : Extended} :
    v ≤ w ↔ v.compare? w = some .lt ∨ v.compare? w = some .eq := by
  unfold compare?
  split_ifs <;> simp_all

theorem compare?_eq_none_iff {v w : Extended} : v.compare? w = none ↔ v = nan ∨ w = nan := by
  by_cases hv : v = nan
  · simp [hv, compare?]
  by_cases hw : w = nan
  · simp [hw, compare?]
  have h := Extended.le_total hv hw
  unfold compare?
  split_ifs <;> simp_all

theorem ne_nan_of_compare? {v w : Extended} {o : Ordering} (h : v.compare? w = some o) :
    v ≠ nan ∧ w ≠ nan := by
  refine not_or.1 fun hnan => ?_
  rw [compare?_eq_none_iff.2 hnan] at h
  cases h

theorem compare?_swap (v w : Extended) : w.compare? v = (v.compare? w).map Ordering.swap := by
  unfold compare?
  split_ifs <;> rfl

/-- Numbers compare as the extended reals that are meant do. -/
theorem compare?_eq_some {v w : Extended} (hv : v ≠ nan) (hw : w ≠ nan) :
    v.compare? w = some (compare v.toEReal w.toEReal) := by
  have hvw := le_iff_toEReal hv hw
  have hwv := le_iff_toEReal hw hv
  unfold compare?
  rcases lt_trichotomy v.toEReal w.toEReal with h | h | h
  · rw [if_pos (hvw.2 h.le), if_neg fun hle => h.not_ge (hwv.1 hle), compare_lt_iff_lt.2 h]
  · rw [if_pos (hvw.2 h.le), if_pos (hwv.2 h.ge), compare_eq_iff_eq.2 h]
  · rw [if_neg fun hle => h.not_ge (hvw.1 hle), if_pos (hwv.2 h.le), compare_gt_iff_gt.2 h]

theorem compare?_eq_some_eq_iff {v w : Extended} :
    v.compare? w = some .eq ↔ v = w ∧ v ≠ nan := by
  by_cases hv : v = nan
  · simp [hv, compare?]
  by_cases hw : w = nan
  · simp [hw, compare?]
  rw [compare?_eq_some hv hw, Option.some.injEq, compare_eq_iff_eq, toEReal_inj hv hw]
  exact (and_iff_left hv).symm

theorem compare?_trans {u v w : Extended} {o : Ordering} (h₁ : u.compare? v = some o)
    (h₂ : v.compare? w = some o) : u.compare? w = some o := by
  obtain ⟨hu, hv⟩ := ne_nan_of_compare? h₁
  obtain ⟨-, hw⟩ := ne_nan_of_compare? h₂
  rw [compare?_eq_some hu hv, Option.some.injEq] at h₁
  rw [compare?_eq_some hv hw, Option.some.injEq] at h₂
  rw [compare?_eq_some hu hw, Option.some.injEq]
  cases o with
  | lt => exact compare_lt_iff_lt.2 ((compare_lt_iff_lt.1 h₁).trans (compare_lt_iff_lt.1 h₂))
  | eq => exact compare_eq_iff_eq.2 ((compare_eq_iff_eq.1 h₁).trans (compare_eq_iff_eq.1 h₂))
  | gt => exact compare_gt_iff_gt.2 ((compare_gt_iff_gt.1 h₂).trans (compare_gt_iff_gt.1 h₁))

end Extended

namespace Fraction

/-- A quotient as its integer part and what is left of the numerator. -/
theorem div_eq_fdiv_add (n : ℤ) {d : ℕ} (hd : (d : ℚ) ≠ 0) :
    (n : ℚ) / d = n.fdiv d + n.fmod d / d := by
  have h : (n : ℚ) = d * n.fdiv d + n.fmod d := by
    exact_mod_cast (Int.mul_fdiv_add_fmod n d).symm
  rw [div_eq_iff hd, add_mul, div_mul_cancel₀ _ hd]
  linarith

/-- Comparing the integer parts first and the cross products of the remainders second is comparing
the quotients. -/
theorem compare?_quotients (n m : ℤ) {d e : ℕ} (hd : d ≠ 0) (he : e ≠ 0) :
    some ((compare (n.fdiv d) (m.fdiv e)).then (compare (n.fmod d * e) (m.fmod e * d))) =
      (Extended.finite (n / d)).compare? (.finite (m / e)) := by
  have hd0 : (0 : ℚ) < d := by exact_mod_cast Nat.pos_of_ne_zero hd
  have he0 : (0 : ℚ) < e := by exact_mod_cast Nat.pos_of_ne_zero he
  -- the remainders over their denominators are in `[0, 1)`
  have hr : ∀ (k : ℤ) (c : ℕ), c ≠ 0 → 0 ≤ (k.fmod c : ℚ) / c ∧ (k.fmod c : ℚ) / c < 1 := by
    intro k c hc
    have hc0 : (0 : ℤ) < c := by omega
    have h0 : (0 : ℚ) < c := by exact_mod_cast hc0
    have h1 : (0 : ℚ) ≤ k.fmod c := by exact_mod_cast Int.fmod_nonneg_of_pos k hc0
    have h2 : (k.fmod c : ℚ) < c := by exact_mod_cast Int.fmod_lt_of_pos k hc0
    exact ⟨div_nonneg h1 h0.le, (div_lt_one h0).2 h2⟩
  have hcast : ∀ {a b : ℤ}, a < b → (a : ℚ) + 1 ≤ b := fun h => by exact_mod_cast h
  rw [div_eq_fdiv_add n hd0.ne', div_eq_fdiv_add m he0.ne']
  rcases lt_trichotomy (n.fdiv d) (m.fdiv e) with h | h | h
  · rw [compare_lt_iff_lt.2 h, Extended.compare?_of_lt]
    · rfl
    · linarith [hcast h, (hr n d hd).2, (hr m e he).1]
  · rw [h, compare_eq_iff_eq.2 rfl]
    rcases lt_trichotomy (n.fmod d * e) (m.fmod e * d) with h' | h' | h'
    · rw [compare_lt_iff_lt.2 h', Extended.compare?_of_lt]
      · rfl
      · refine (add_lt_add_iff_left _).2 ((div_lt_div_iff₀ hd0 he0).2 ?_)
        exact_mod_cast h'
    · have heq : (n.fmod d : ℚ) / d = m.fmod e / e :=
        (div_eq_div_iff hd0.ne' he0.ne').2 (by exact_mod_cast h')
      rw [h', heq, compare_eq_iff_eq.2 rfl, Extended.compare?_self]
      rfl
    · rw [compare_gt_iff_gt.2 h', Extended.compare?_of_gt]
      · rfl
      · refine (add_lt_add_iff_left _).2 ((div_lt_div_iff₀ he0 hd0).2 ?_)
        exact_mod_cast h'
  · rw [compare_gt_iff_gt.2 h, Extended.compare?_of_gt]
    · rfl
    · linarith [hcast h, (hr n d hd).1, (hr m e he).2]

/-- Fractions compare as their values do. -/
theorem compare?_eq {f g : Fraction} (hf : f.WellFormed) (hg : g.WellFormed) :
    f.compare? g = f.value.compare? g.value := by
  cases f with
  | nan => cases g <;> simp [compare?, Extended.compare?]
  | infinite a =>
    cases g with
    | nan => cases a <;> simp [compare?, Extended.compare?]
    | infinite b => cases a <;> cases b <;> rfl
    | finite b m e => cases a <;> simp [compare?, Extended.compare?, value_finite]
  | finite a n d =>
    cases g with
    | nan => simp [compare?, Extended.compare?]
    | infinite b => cases b <;> simp [compare?, Extended.compare?, value_finite]
    | finite b m e => exact compare?_quotients _ _ hf.1 hg.1

theorem scalar_le_iff {f g : Fraction} (hf : f.WellFormed) (hg : g.WellFormed) :
    Scalar.le f g = true ↔ f.value ≤ g.value := by
  have h : Scalar.le f g = (f.compare? g == some .lt || f.compare? g == some .eq) := rfl
  rw [h, compare?_eq hf hg, Extended.le_iff_compare?]
  simp

/-- Reducing the terms does not change how a fraction compares. -/
theorem compare?_simplified {f g : Fraction} (hf : f.WellFormed) (hg : g.WellFormed) :
    f.simplified.compare? g = f.compare? g ∧ g.compare? f.simplified = g.compare? f := by
  have hs := wellFormed_simplified hf
  rw [compare?_eq hs hg, compare?_eq hg hs, value_simplified hf, compare?_eq hf hg,
    compare?_eq hg hf]
  exact ⟨rfl, rfl⟩

/-- NaN is comparable with nothing. All other fractions compare as the extended real numbers do that
they stand for: totally and transitively, as equal if and only if `==` holds, and with the same
outcome in lowest terms. -/
theorem order_total_and_transitive {f g h : Fraction} (hf : f.WellFormed) (hg : g.WellFormed)
    (hh : h.WellFormed) :
    (f.compare? g = none ↔ f = nan ∨ g = nan) ∧
      (f ≠ nan → g ≠ nan →
        f.compare? g = some (compare f.value.toEReal g.value.toEReal) ∧
          (Scalar.le f g = true ∨ Scalar.le g f = true)) ∧
      g.compare? f = (f.compare? g).map Ordering.swap ∧
      (∀ o, f.compare? g = some o → g.compare? h = some o → f.compare? h = some o) ∧
      (Scalar.le f g = true → Scalar.le g h = true → Scalar.le f h = true) ∧
      (f.compare? g = some .eq ↔ (f == g) = true) ∧
      f.simplified.compare? g = f.compare? g ∧ f.compare? g.simplified = f.compare? g := by
  refine ⟨?_, fun hfn hgn => ⟨?_, ?_⟩, ?_, fun o hfg hgh => ?_, fun hfg hgh => ?_, ?_,
    (compare?_simplified hf hg).1, (compare?_simplified hg hf).2⟩
  · rw [compare?_eq hf hg, Extended.compare?_eq_none_iff, value_eq_nan_iff, value_eq_nan_iff]
  · rw [compare?_eq hf hg]
    exact Extended.compare?_eq_some (value_eq_nan_iff.not.2 hfn) (value_eq_nan_iff.not.2 hgn)
  · rw [scalar_le_iff hf hg, scalar_le_iff hg hf]
    exact Extended.le_total (value_eq_nan_iff.not.2 hfn) (value_eq_nan_iff.not.2 hgn)
  · rw [compare?_eq hf hg, compare?_eq hg hf]
    exact Extended.compare?_swap f.value g.value
  · rw [compare?_eq hf hg] at hfg
    rw [compare?_eq hg hh] at hgh
    rw [compare?_eq hf hh]
    exact Extended.compare?_trans hfg hgh
  · rw [scalar_le_iff hf hg] at hfg
    rw [scalar_le_iff hg hh] at hgh
    rw [scalar_le_iff hf hh]
    exact Extended.le_trans hfg hgh
  · rw [compare?_eq hf hg, Extended.compare?_eq_some_eq_iff, beq_iff hf hg]

/-- Negative fractions that are not in lowest terms: `-7/2` is less than `-6/4`, which is less than
infinity, and `-6/4` is equal to `-3/2`. -/
theorem order_of_negative_unreduced :
    (finite true 7 2).compare? (finite true 6 4) = some .lt ∧
      (finite true 6 4).compare? (infinite false) = some .lt ∧
      (finite true 7 2).compare? (infinite false) = some .lt ∧
      (finite true 6 4).simplified = finite true 3 2 ∧
      (finite true 7 2).compare? (finite true 3 2) = some .lt ∧
      (finite true 6 4 == finite true 3 2) = true ∧
      (finite true 6 4).compare? (finite true 3 2) = some .eq := by
  have hlt : (finite true 7 2).compare? (finite true 6 4) = some .lt := by decide
  have hinf : (finite true 6 4).compare? (infinite false) = some .lt := by decide
  have hbeq : (finite true 6 4 == finite true 3 2) = true := by decide
  have hterms : (finite true 6 4).simplified = finite true 3 2 := by decide
  obtain ⟨-, -, -, htrans, -, -, -, hred⟩ :=
    order_total_and_transitive (f := finite true 7 2) (g := finite true 6 4)
      (h := infinite false) (by decide) (by decide) (by decide)
  obtain ⟨-, -, -, -, -, heq, -, -⟩ :=
    order_total_and_transitive (f := finite true 6 4) (g := finite true 3 2) (h := nan)
      (by decide) (by decide) (by decide)
  rw [hterms, hlt] at hred
  exact ⟨hlt, hinf, htrans .lt hlt hinf, hterms, hred, hbeq, heq.2 hbeq⟩

end Fraction

namespace Value

theorem compare?_fraction {f g : Fraction} (hf : f.WellFormed) (hg : g.WellFormed) :
    (fraction f).compare? (fraction g) = f.value.compare? g.value :=
  Fraction.compare?_eq hf hg

theorem le_fraction {f g : Fraction} (hf : f.WellFormed) (hg : g.WellFormed) :
    (fraction f).le (fraction g) = true ↔ f.value ≤ g.value := by
  rw [le, compare?_fraction hf hg, Extended.le_iff_compare?]
  simp

theorem lt_fraction {f g : Fraction} (hf : f.WellFormed) (hg : g.WellFormed) (hfn : f.value ≠ .nan)
    (hgn : g.value ≠ .nan) : (fraction f).lt (fraction g) = true ↔ ¬ g.value ≤ f.value := by
  rw [lt, compare?_fraction hf hg, beq_iff_eq, Extended.compare?_eq_lt_iff hfn hgn]

end Value

end Formula
