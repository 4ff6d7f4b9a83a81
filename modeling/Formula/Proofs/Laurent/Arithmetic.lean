import Formula.Proofs.Laurent.Value
import Mathlib.Tactic.Ring

/-!
# Arithmetic of polynomials

`Sums v ts q` says that at a point of value `v` all terms of the list are rational numbers, and that
`q` is their sum. Each operation on polynomials acts on these sums as the operation on rationals of
the same name. Nothing is asked of `v` itself: negative powers may stand at an infinite point, and
the power zero everywhere.
-/

namespace Formula

namespace Extended

protected theorem zpow_zero (v : Extended) : v.zpow 0 = finite 1 := by
  simp [zpow, one_def]

/-- The powers that are rational numbers. -/
theorem zpow_eq_finite {v : Extended} {i : ℤ} {a : ℚ} (h : v.zpow i = finite a) :
    i = 0 ∨ (∃ q, v = finite q ∧ (0 ≤ i ∨ q ≠ 0) ∧ a = q ^ i) ∨
      ∃ s, v = infinite s ∧ i < 0 ∧ a = 0 := by
  by_cases hi : i = 0
  · exact .inl hi
  refine .inr ?_
  obtain ⟨k, hk⟩ : ∃ k, i.natAbs = k + 1 := Nat.exists_eq_succ_of_ne_zero (Int.natAbs_ne_zero.2 hi)
  cases v with
  | finite q =>
    refine .inl ⟨q, rfl, ?_⟩
    by_cases hq : 0 ≤ i ∨ q ≠ 0
    · rw [finite_zpow hq, finite.injEq] at h
      exact ⟨hq, h.symm⟩
    · obtain ⟨hneg, rfl⟩ : i < 0 ∧ q = 0 := by simpa using hq
      simp [zpow, hneg, hk] at h
  | infinite s =>
    rw [zpow, hk, infinite_pow] at h
    split_ifs at h with hneg
    exact .inr ⟨s, rfl, hneg, by simpa using h.symm⟩
  | nan =>
    rw [zpow, hk, nan_pow] at h
    split_ifs at h
    simp at h

theorem zpow_of_neg {s : Bool} {i : ℤ} (hi : i < 0) : (infinite s).zpow i = finite 0 := by
  obtain ⟨k, hk⟩ : ∃ k, i.natAbs = k + 1 := Nat.exists_eq_succ_of_ne_zero (by omega)
  rw [zpow, if_pos hi, hk, infinite_pow, inv_infinite]

protected theorem zpow_add {v : Extended} {i j : ℤ} {a b : ℚ} (hi : v.zpow i = finite a)
    (hj : v.zpow j = finite b) : v.zpow (i + j) = finite (a * b) := by
  rcases zpow_eq_finite hi with rfl | ⟨q, rfl, hiq, rfl⟩ | ⟨s, rfl, hineg, rfl⟩
  · obtain rfl : 1 = a := by simpa [Extended.zpow_zero] using hi
    rwa [zero_add, one_mul]
  · rcases zpow_eq_finite hj with rfl | ⟨_, hq, hjq, rfl⟩ | ⟨_, hq, -⟩
    · obtain rfl : 1 = b := by simpa [Extended.zpow_zero] using hj
      rwa [add_zero, mul_one]
    · cases hq
      by_cases h0 : q = 0
      · have hi0 : 0 ≤ i := hiq.resolve_right (not_not.2 h0)
        have hj0 : 0 ≤ j := hjq.resolve_right (not_not.2 h0)
        rw [finite_zpow (.inl (by omega)), zpow_add' (.inr (by omega))]
      · rw [finite_zpow (.inr h0), zpow_add₀ h0]
    · cases hq
  · rcases zpow_eq_finite hj with rfl | ⟨_, hq, -⟩ | ⟨_, -, hjneg, rfl⟩
    · obtain rfl : 1 = b := by simpa [Extended.zpow_zero] using hj
      rwa [add_zero, mul_one]
    · cases hq
    · rw [zpow_of_neg (by omega), mul_zero]

protected theorem zpow_neg {v : Extended} {i : ℤ} {a : ℚ} (hi : v.zpow i = finite a) (ha : a ≠ 0) :
    v.zpow (-i) = finite a⁻¹ := by
  rcases zpow_eq_finite hi with rfl | ⟨q, rfl, hiq, rfl⟩ | ⟨s, rfl, -, rfl⟩
  · obtain rfl : 1 = a := by simpa [Extended.zpow_zero] using hi
    rwa [neg_zero, inv_one]
  · by_cases hq : q = 0
    · -- only the power zero of zero is not zero
      obtain rfl : i = 0 := by
        by_contra h
        exact ha (by rw [hq, zero_zpow i h])
      simp [Extended.zpow_zero]
    · rw [finite_zpow (.inr hq), zpow_neg]
  · cases ha rfl

theorem mul_eq_finite {v w : Extended} {q : ℚ} (h : v * w = finite q) :
    ∃ r s, v = finite r ∧ w = finite s ∧ q = r * s := by
  cases v with
  | finite r =>
    cases w with
    | finite s => exact ⟨r, s, rfl, rfl, by simpa using h.symm⟩
    | infinite b =>
      rw [finite_mul_infinite] at h
      split_ifs at h
    | nan => simp at h
  | infinite a =>
    cases w with
    | finite s =>
      rw [infinite_mul_finite] at h
      split_ifs at h
    | infinite b => simp at h
    | nan => simp at h
  | nan => simp at h

theorem add_eq_finite {v w : Extended} {q : ℚ} (h : v + w = finite q) :
    ∃ r s, v = finite r ∧ w = finite s ∧ q = r + s := by
  cases v with
  | finite r =>
    cases w with
    | finite s => exact ⟨r, s, rfl, rfl, by simpa using h.symm⟩
    | infinite b => simp at h
    | nan => simp at h
  | infinite a =>
    cases w with
    | finite s => simp at h
    | infinite b =>
      rw [infinite_add] at h
      split_ifs at h
    | nan => simp at h
  | nan => simp at h

end Extended

namespace Laurent

/-! ## Sums of terms -/

/-- At a point of value `v` the terms are rational numbers with the sum `q`. -/
inductive Sums (v : Extended) : List (ℤ × Fraction) → ℚ → Prop
  | nil : Sums v [] 0
  | cons {i : ℤ} {c : Fraction} {r s q : ℚ} {ts : List (ℤ × Fraction)} (hc : c.WellFormed)
      (hr : c.value = .finite r) (hs : v.zpow i = .finite s) (h : Sums v ts q) :
      Sums v ((i, c) :: ts) (r * s + q)

variable {v : Extended} {ts us : List (ℤ × Fraction)} {a b : ℚ}

theorem Sums.wellFormed (h : Sums v ts a) : ∀ t ∈ ts, t.2.WellFormed := by
  induction h with
  | nil => simp
  | cons hc _ _ _ ih => simpa using ⟨hc, by simpa using ih⟩

/-- The terms of a polynomial with a rational value are rational numbers with this sum. -/
theorem sums_iff {p : Laurent Fraction} :
    Sums v p.terms a ↔ p.WellFormed ∧ p.valueAt v = .finite a := by
  obtain ⟨ts⟩ := p
  constructor
  · intro (h : Sums v ts a)
    refine ⟨h.wellFormed, ?_⟩
    induction h with
    | nil => rfl
    | cons hc hr hs _ ih =>
      rw [valueAt] at ih ⊢
      rw [List.map_cons, List.sum_cons, hr, hs, ih, Extended.finite_mul, Extended.finite_add]
  · rintro ⟨hwf, h⟩
    induction ts generalizing a with
    | nil =>
      obtain rfl : 0 = a := by simpa [valueAt, Extended.zero_def] using h
      exact .nil
    | cons t ts ih =>
      rw [valueAt, List.map_cons, List.sum_cons] at h
      obtain ⟨q, b, hq, hb, rfl⟩ := Extended.add_eq_finite h
      obtain ⟨r, s, hr, hs, rfl⟩ := Extended.mul_eq_finite hq
      exact .cons (hwf t List.mem_cons_self) hr hs
        (ih (fun u hu => hwf u (List.mem_cons_of_mem t hu)) hb)

theorem Sums.accumulate {i : ℤ} {c : Fraction} {r s : ℚ} (h : Sums v ts a) (hc : c.WellFormed)
    (hr : c.value = .finite r) (hs : v.zpow i = .finite s) :
    Sums v (Laurent.accumulate ts i c) (a + r * s) := by
  have hadd {d : Fraction} {t : ℚ} (hd : d.WellFormed) (ht : d.value = .finite t) :
      (d + c).WellFormed ∧ (d + c).value = .finite (t + r) := by
    refine ⟨Fraction.wellFormed_add _ _ hd hc, ?_⟩
    rw [Fraction.value_add hd hc, ht, hr, Extended.finite_add]
  obtain ⟨hwf₀, hval₀⟩ := hadd Fraction.wellFormed_zero Fraction.value_zero
  rw [zero_add] at hval₀
  unfold Laurent.accumulate
  induction h with
  | nil =>
    rw [add_comm]
    exact .cons hwf₀ hval₀ hs .nil
  | @cons j d t u q ts hd ht hu hrest ih =>
    rw [upsert]
    split_ifs with hlt heq
    · rw [add_comm]
      exact .cons hwf₀ hval₀ hs (.cons hd ht hu hrest)
    · subst heq
      obtain rfl : s = u := by simpa using hs.symm.trans hu
      obtain ⟨hwf, hval⟩ := hadd hd ht
      have hsum := Sums.cons hwf hval hu hrest
      rwa [show (t + r) * s + q = t * s + q + r * s by ring] at hsum
    · rw [add_assoc]
      exact .cons hd ht hu ih

theorem Sums.dropZeros (h : Sums v ts a) : Sums v (Laurent.dropZeros ts) a := by
  unfold Laurent.dropZeros
  induction h with
  | nil => exact .nil
  | @cons j d t u q ts hd ht hu hrest ih =>
    rw [List.filter_cons]
    split_ifs with hz
    · exact .cons hd ht hu ih
    · have hzero : Scalar.isZero d = true := by simpa using hz
      obtain rfl : t = 0 := by
        have h0 := (Fraction.isZero_iff hd).1 hzero
        simpa [ht, Extended.zero_def] using h0
      rwa [zero_mul, zero_add]

/-! ## Operations -/

theorem Sums.foldl_accumulate (h₁ : Sums v ts a) (h₂ : Sums v us b) :
    Sums v (us.foldl (fun acc t => Laurent.accumulate acc t.1 t.2) ts) (a + b) := by
  induction h₂ generalizing ts a with
  | nil => rwa [add_zero]
  | cons hc hr hs _ ih =>
    rw [← add_assoc]
    exact ih (h₁.accumulate hc hr hs)

theorem Sums.negated (h : Sums v ts a) : Sums v (Laurent.negated ⟨ts⟩).terms (-a) := by
  unfold Laurent.negated
  induction h with
  | nil => simpa using Sums.nil
  | @cons i c r s q ts hc hr hs _ ih =>
    have hneg : (-c).value = .finite (-r) := by rw [Fraction.value_neg hc, hr, Extended.neg_finite]
    have hsum := Sums.cons (Fraction.wellFormed_neg c) hneg hs ih
    rwa [show -r * s + -q = -(r * s + q) by ring] at hsum

theorem sums_added {p q : Laurent Fraction} (hp : Sums v p.terms a) (hq : Sums v q.terms b) :
    Sums v (p.added q).terms (a + b) :=
  (hp.foldl_accumulate hq).dropZeros

/-- One row of the product: each term of `us` times the term `c * x ^ i`. -/
theorem Sums.foldl_multiplied {i : ℤ} {c : Fraction} {r s : ℚ} (h₁ : Sums v ts a)
    (hc : c.WellFormed) (hr : c.value = .finite r) (hs : v.zpow i = .finite s)
    (h₂ : Sums v us b) :
    Sums v (us.foldl (fun acc t => Laurent.accumulate acc (i + t.1) (c * t.2)) ts)
      (a + r * s * b) := by
  induction h₂ generalizing ts a with
  | nil => simpa using h₁
  | @cons j d t u q us hd ht hu _ ih =>
    have hmul : (c * d).value = .finite (r * t) := by
      rw [Fraction.value_mul hc hd, hr, ht, Extended.finite_mul]
    have hsum := ih (h₁.accumulate (Fraction.wellFormed_mul c d) hmul (Extended.zpow_add hs hu))
    rwa [show a + r * t * (s * u) + r * s * q = a + r * s * (t * u + q) by ring] at hsum

theorem sums_multiplied {p q : Laurent Fraction} (hp : Sums v p.terms a) (hq : Sums v q.terms b) :
    Sums v (p.multiplied q).terms (a * b) := by
  -- the rows are added to the product so far, which starts without terms
  have hrows {acc : List (ℤ × Fraction)} {c : ℚ} (hacc : Sums v acc c) :
      Sums v (p.terms.foldl (fun acc t => q.terms.foldl
        (fun acc u => Laurent.accumulate acc (t.1 + u.1) (t.2 * u.2)) acc) acc) (c + a * b) := by
    generalize p.terms = ts at hp
    induction hp generalizing acc c with
    | nil => simpa using hacc
    | @cons i d r s e ts hd hr hs _ ih =>
      have hsum := ih (hacc.foldl_multiplied hd hr hs hq)
      rwa [show c + r * s * b + e * b = c + (r * s + e) * b by ring] at hsum
  have h := (hrows .nil).dropZeros
  rwa [zero_add] at h

/-! ## Powers -/

theorem sums_powNat {p : Laurent Fraction} (hp : Sums v p.terms a) (n : ℕ) :
    Sums v (p.powNat n).terms (a ^ n) := by
  induction n with
  | zero =>
    have hone : Fraction.one.value = .finite 1 := Fraction.value_one
    have h := Sums.cons Fraction.wellFormed_one hone v.zpow_zero .nil
    rwa [mul_one, add_zero, ← pow_zero a] at h
  | succ n ih =>
    rw [pow_succ]
    exact sums_multiplied ih hp

theorem length_multiplied_le_one {p q : Laurent Fraction} (hp : p.terms.length ≤ 1)
    (hq : q.terms.length ≤ 1) : (p.multiplied q).terms.length ≤ 1 := by
  obtain ⟨ts⟩ := p
  obtain ⟨us⟩ := q
  match ts, us with
  | [], _ => simp [multiplied, Laurent.dropZeros]
  | [_], [] => simp [multiplied, Laurent.dropZeros]
  | [_], [_] => exact List.length_filter_le _ _
  | _ :: _ :: _, _ => simp at hp
  | _, _ :: _ :: _ => simp at hq

theorem length_powNat_le_one {p : Laurent Fraction} (hp : p.terms.length ≤ 1) (n : ℕ) :
    (p.powNat n).terms.length ≤ 1 := by
  induction n with
  | zero => exact le_refl 1
  | succ n ih => exact length_multiplied_le_one ih hp

/-- The reciprocal of a single term that is not zero. -/
theorem sums_reciprocal {p : Laurent Fraction} (hp : Sums v p.terms a) (hlen : p.terms.length ≤ 1)
    (ha : a ≠ 0) : Sums v p.reciprocal.terms a⁻¹ := by
  obtain ⟨ts⟩ := p
  match ts, hp with
  | [], .nil => cases ha rfl
  | [(i, c)], .cons (r := r) (s := s) hc hr hs .nil =>
    rw [add_zero] at ha ⊢
    obtain ⟨hr0, hs0⟩ := mul_ne_zero_iff.1 ha
    have hinv : (Fraction.one / c).value = .finite r⁻¹ := by
      rw [Fraction.value_div Fraction.wellFormed_one hc, hr, Fraction.value_one, one_mul,
        Extended.inv_finite, if_neg hr0]
    have h := Sums.cons (Fraction.wellFormed_div .one c) hinv (Extended.zpow_neg hs hs0) .nil
    rw [add_zero, ← mul_inv] at h
    exact h.dropZeros
  | _ :: _ :: _, _ => simp at hlen

/-- The power of a polynomial has the power of its value, for negative exponents if it is a single
term that is not zero. -/
theorem sums_power {p : Laurent Fraction} (hp : Sums v p.terms a) {n : ℤ}
    (hn : 0 ≤ n ∨ p.isMonomial = true ∧ a ≠ 0) : Sums v (p.power n).terms (a ^ n) := by
  have hpow := sums_powNat hp n.natAbs
  unfold power
  split_ifs with hneg
  · obtain ⟨hmono, ha⟩ := hn.resolve_left (by omega)
    have hlen : p.terms.length ≤ 1 := by
      rw [isMonomial, termCount, beq_iff_eq] at hmono
      exact hmono.le
    have h := sums_reciprocal hpow (length_powNat_le_one hlen _) (pow_ne_zero _ ha)
    rwa [← zpow_natCast, ← zpow_neg, show -(n.natAbs : ℤ) = n by omega] at h
  · rwa [← zpow_natCast, show (n.natAbs : ℤ) = n by omega] at hpow

/-! ## Equality -/

theorem Sums.eq_of_zip (h₁ : Sums v ts a) (h₂ : Sums v us b) (hlen : ts.length = us.length)
    (hzip : ∀ t ∈ ts.zip us, t.1.1 = t.2.1 ∧ (t.1.2 == t.2.2) = true) : a = b := by
  induction h₁ generalizing us b with
  | nil =>
    cases h₂ with
    | nil => rfl
    | cons => simp at hlen
  | cons hc hr hs _ ih =>
    cases h₂ with
    | nil => simp at hlen
    | cons hd ht hu h₂ =>
      simp only [List.zip_cons_cons, List.forall_mem_cons] at hzip
      obtain ⟨⟨rfl, hbeq⟩, hzip⟩ := hzip
      have hvalue := ((Fraction.beq_iff hc hd).1 hbeq).1
      rw [hr, ht, Extended.finite.injEq] at hvalue
      rw [hs, Extended.finite.injEq] at hu
      rw [hvalue, hu, ih h₂ (by simpa using hlen) hzip]

/-- Polynomials that are equal have one value. -/
theorem sums_eq_of_beq {p q : Laurent Fraction} (hp : Sums v p.terms a) (hq : Sums v q.terms b)
    (h : (p == q) = true) : a = b := by
  change p.beq q = true at h
  rw [beq, Bool.and_eq_true, beq_iff_eq, List.all_eq_true] at h
  refine hp.eq_of_zip hq h.1 fun t ht => ?_
  simpa using h.2 t ht

end Laurent

end Formula
