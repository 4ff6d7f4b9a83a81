import Formula.Proofs.Laurent.Evaluation

/-!
# Powers of a monomial

`IsTerm q i p` says that `p` is the one term `q * x ^ i`. Products, reciprocals and powers of such
polynomials are terms again, and of the numbers that stand in them the coefficients are multiplied and
the powers are added. So the integer powers of a monomial that is not zero form a group, and evaluation
at a point that is not zero is a homomorphism on it (`power_monomial`).

The powers have to fit into 64 bits, and so do those met on the way. There is one power that fits and is
not reached: `x ^ (-2 ^ 63)` as a power to a negative exponent, since it is the reciprocal of
`x ^ (2 ^ 63)` there (`power_monomial_of_least_power`).
-/

namespace Formula

open Fraction (wordBound isWord isWord_iff)

namespace Fraction

variable {f : Fraction}

theorem IsRational.inv (hf : f.IsRational) (h0 : f.toRat ≠ 0) :
    (one / f).IsRational ∧ (one / f).toRat = f.toRat⁻¹ := by
  apply isRational_of_value (wellFormed_div one f)
  rw [value_div wellFormed_one hf.1, value_one, one_mul, hf.value_eq, Extended.inv_finite, if_neg h0]

theorem IsRational.powInt (hf : f.IsRational) {n : ℤ} (h : 0 ≤ n ∨ f.toRat ≠ 0) :
    (f.powInt n).IsRational ∧ (f.powInt n).toRat = f.toRat ^ n := by
  apply isRational_of_value (wellFormed_powInt f n)
  rw [value_powInt n hf.1, hf.value_eq, Extended.finite_zpow h]

end Fraction

namespace Laurent

/-- The polynomial is the one term `q * x ^ i`. -/
inductive IsTerm (q : ℚ) (i : ℤ) : Laurent Fraction → Prop
  | mk {c : Fraction} (hc : c.IsRational) (hq : c.toRat = q) : IsTerm q i ⟨[(i, c)]⟩

variable {p p' : Laurent Fraction} {c x : Fraction} {q r : ℚ} {i j : ℤ}

theorem isTerm_of_dropZeros (hc : c.IsRational) (h0 : c.toRat ≠ 0) (i : ℤ) :
    IsTerm c.toRat i ⟨dropZeros [(i, c)]⟩ := by
  have hkeep : c.isZero = false := by
    rw [Bool.eq_false_iff]
    exact fun hzero => h0 (hc.isZero_iff.1 hzero)
  rw [dropZeros_singleton i hkeep]
  exact .mk hc rfl

theorem isTerm_monomial (hc : c.IsRational) (h0 : c.toRat ≠ 0) (i : ℤ) :
    IsTerm c.toRat i (monomial c i) :=
  isTerm_of_dropZeros hc h0 i

theorem isTerm_one : IsTerm 1 0 (constant Fraction.one) :=
  .mk Fraction.isRational_one.1 Fraction.isRational_one.2

/-! ## Operations -/

theorem IsTerm.multiplied (hp : IsTerm q i p) (hp' : IsTerm r j p') (h0 : q * r ≠ 0) :
    IsTerm (q * r) (i + j) (p.multiplied p') := by
  obtain @⟨c, hc, rfl⟩ := hp
  obtain @⟨d, hd, rfl⟩ := hp'
  -- the product is added to the zero that stands for a missing term
  obtain ⟨hrat, hval⟩ := Fraction.isRational_zero.1.add (hc.mul hd).1
  rw [Fraction.isRational_zero.2, (hc.mul hd).2, zero_add] at hval
  rw [← hval] at h0 ⊢
  exact isTerm_of_dropZeros hrat h0 (i + j)

theorem IsTerm.reciprocal (hp : IsTerm q i p) (h0 : q ≠ 0) : IsTerm q⁻¹ (-i) p.reciprocal := by
  obtain @⟨c, hc, rfl⟩ := hp
  obtain ⟨hrat, hval⟩ := hc.inv h0
  have hinv := inv_ne_zero h0
  rw [← hval] at hinv ⊢
  exact isTerm_of_dropZeros hrat hinv (-i)

theorem IsTerm.powNat (hp : IsTerm q i p) (h0 : q ≠ 0) (n : ℕ) :
    IsTerm (q ^ n) (i * n) (p.powNat n) := by
  induction n with
  | zero =>
    rw [pow_zero, Nat.cast_zero, mul_zero]
    exact isTerm_one
  | succ n ih =>
    have h := ih.multiplied hp (mul_ne_zero (pow_ne_zero n h0) h0)
    rwa [← pow_succ, show i * n + i = i * (n + 1 : ℕ) by push_cast; ring] at h

/-- The sign of the exponent decides whether the product of the factors is turned over at the end. -/
theorem IsTerm.power (hp : IsTerm q i p) (h0 : q ≠ 0) (n : ℤ) :
    IsTerm (q ^ n) (i * n) (p.power n) := by
  have hpow := hp.powNat h0 n.natAbs
  rw [← zpow_natCast] at hpow
  unfold Laurent.power
  split_ifs with hneg
  · have h := hpow.reciprocal (zpow_ne_zero _ h0)
    rwa [← zpow_neg, ← mul_neg, show -(n.natAbs : ℤ) = n by omega] at h
  · rwa [show (n.natAbs : ℤ) = n by omega] at hpow

theorem IsTerm.eval (hp : IsTerm q i p) (hx : x.IsRational) (hx0 : x.toRat ≠ 0) :
    (p.eval x).IsRational ∧ (p.eval x).toRat = q * x.toRat ^ i := by
  obtain ⟨hc, rfl⟩ := hp
  rw [← add_zero (_ * _)]
  exact eval_of_sums hx (.cons hc.1 hc.value_eq (Extended.finite_zpow (.inr hx0)) .nil)

theorem IsTerm.beq (hp : IsTerm q i p) (hp' : IsTerm q i p') : (p == p') = true := by
  obtain ⟨hc, hq⟩ := hp
  obtain ⟨hd, hr⟩ := hp'
  rw [beq_cons, (hc.beq_iff hd).2 (hq.trans hr.symm), beq_self_eq_true]
  rfl

/-! ## Powers of 64 bits -/

theorem IsTerm.productFits (hp : IsTerm q i p) (hp' : IsTerm r j p') :
    p.productFits p' = isWord (i + j) := by
  obtain ⟨-, -⟩ := hp
  obtain ⟨-, -⟩ := hp'
  simp only [Laurent.productFits, List.all_cons, List.all_nil, Bool.and_true]

theorem IsTerm.reciprocalFits (hp : IsTerm q i p) : p.reciprocalFits = isWord (-i) := by
  obtain ⟨-, -⟩ := hp
  simp only [Laurent.reciprocalFits, List.all_cons, List.all_nil, Bool.and_true]

/-- The multiples of an integer up to one that fits lie between this one and zero. -/
theorem isWord_mul_of_succ {n : ℕ} (h : isWord (i * (n + 1 : ℕ)) = true) :
    isWord (i * n) = true := by
  rw [isWord_iff] at h ⊢
  push_cast at h
  rw [mul_add_one] at h
  rcases le_total 0 i with hi | hi
  · have := mul_nonneg hi n.cast_nonneg
    omega
  · have := mul_nonpos_of_nonpos_of_nonneg hi n.cast_nonneg
    omega

theorem IsTerm.powNat? (hp : IsTerm q i p) (h0 : q ≠ 0) (n : ℕ) :
    p.powNat? n = if isWord (i * n) = true then some (p.powNat n) else none := by
  induction n with
  | zero =>
    rw [Nat.cast_zero, mul_zero, if_pos (by decide)]
    rfl
  | succ n ih =>
    have hsum : i * n + i = i * (n + 1 : ℕ) := by push_cast; ring
    rw [Laurent.powNat?, ih]
    split_ifs with hn hsucc hsucc
    · rw [Option.bind_some, multiplied?, (hp.powNat h0 n).productFits hp, hsum, if_pos hsucc]
      rfl
    · rw [Option.bind_some, multiplied?, (hp.powNat h0 n).productFits hp, hsum, if_neg hsucc]
    · exact absurd (isWord_mul_of_succ hsucc) hn
    · rfl

/-- The power `i * n` to the exponent `n` is reached: it fits, and so does its negation if the exponent
is negative, since then it is the power of a reciprocal. -/
def PowerFits (i n : ℤ) : Prop :=
  isWord (i * n) = true ∧ (n < 0 → i * n ≠ -wordBound)

instance (i n : ℤ) : Decidable (PowerFits i n) :=
  inferInstanceAs (Decidable (_ ∧ _))

theorem IsTerm.power? (hp : IsTerm q i p) (h0 : q ≠ 0) (n : ℤ) :
    p.power? n = if PowerFits i n then some (p.power n) else none := by
  rw [Laurent.power?, hp.powNat? h0, Laurent.power]
  by_cases hneg : n < 0
  · have habs : i * n.natAbs = -(i * n) := by
      rw [← mul_neg, show (n.natAbs : ℤ) = -n by omega]
    have hfits : PowerFits i n ↔ isWord (-(i * n)) = true ∧ isWord (i * n) = true := by
      rw [PowerFits, isWord_iff, isWord_iff]
      omega
    simp only [habs, if_pos hneg]
    split_ifs with hpow hreach hreach
    · rw [Option.bind_some, reciprocal?, (hp.powNat h0 n.natAbs).reciprocalFits, habs, neg_neg,
        if_pos (hfits.1 hreach).2]
    · rw [Option.bind_some, reciprocal?, (hp.powNat h0 n.natAbs).reciprocalFits, habs, neg_neg,
        if_neg fun hword => hreach (hfits.2 ⟨hpow, hword⟩)]
    · exact absurd (hfits.1 hreach).1 hpow
    · rfl
  · have habs : (n.natAbs : ℤ) = n := by omega
    have hfits : PowerFits i n ↔ isWord (i * n) = true := and_iff_left fun h => absurd h hneg
    simp only [habs, if_neg hneg]
    split_ifs with hpow hreach hreach
    · rfl
    · exact absurd (hfits.2 hpow) hreach
    · exact absurd (hfits.1 hreach) hpow
    · rfl

/-! ## The group of powers -/

/-- The integer powers of a monomial `c * x ^ i` with a rational `c` that is not zero are the monomials
of the powers of `c`, which are exact, and the values of powers are the powers of the value. Products of
powers are powers to the sum of the exponents, and the reciprocal is the inverse. A power has a result
if and only if it is reached, a product of powers and a reciprocal whenever their powers fit. -/
theorem power_monomial (hc : c.IsRational) (h0 : c.toRat ≠ 0) (i a b : ℤ) :
    ((((monomial c i).power? a).isSome = true ↔ PowerFits i a) ∧
      ∀ p, (monomial c i).power? a = some p →
        (p == monomial (c.powInt a) (i * a)) = true ∧
          (c.powInt a).IsRational ∧ (c.powInt a).toRat = c.toRat ^ a ∧
          ∀ x : Fraction, x.IsRational → x.toRat ≠ 0 →
            (p.eval x == ((monomial c i).eval x).powInt a) = true) ∧
    (∀ p p', (monomial c i).power? a = some p → (monomial c i).power? b = some p' →
      isWord (i * (a + b)) = true →
        ∃ r, p.multiplied? p' = some r ∧ (r == monomial (c.powInt (a + b)) (i * (a + b))) = true ∧
          ∀ p'', (monomial c i).power? (a + b) = some p'' → (r == p'') = true) ∧
    (isWord (-i) = true →
      ∃ r s, (monomial c i).reciprocal? = some r ∧ r.multiplied? (monomial c i) = some s ∧
        (s == constant Fraction.one) = true) := by
  have hm := isTerm_monomial hc h0 i
  have hpower := hm.power h0
  have hne (n : ℤ) : c.toRat ^ n ≠ 0 := zpow_ne_zero n h0
  have hpowInt (n : ℤ) := hc.powInt (n := n) (.inr h0)
  have hmono (n : ℤ) : IsTerm (c.toRat ^ n) (i * n) (monomial (c.powInt n) (i * n)) := by
    have h := isTerm_monomial (hpowInt n).1 ((hpowInt n).2 ▸ hne n) (i * n)
    rwa [(hpowInt n).2] at h
  refine ⟨⟨?_, ?_⟩, ?_, ?_⟩
  · rw [hm.power? h0]
    split_ifs with hfits <;> simp [hfits]
  · intro p hp
    cases power?_eq_some hp
    refine ⟨(hpower a).beq (hmono a), (hpowInt a).1, (hpowInt a).2, fun x hx hx0 => ?_⟩
    obtain ⟨hmrat, hmval⟩ := hm.eval hx hx0
    obtain ⟨hprat, hpval⟩ := (hpower a).eval hx hx0
    have hvalue : ((monomial c i).eval x).toRat ≠ 0 := by
      rw [hmval]
      exact mul_ne_zero h0 (zpow_ne_zero i hx0)
    obtain ⟨hvrat, hvval⟩ := hmrat.powInt (n := a) (.inr hvalue)
    rw [hprat.beq_iff hvrat, hpval, hvval, hmval, mul_zpow, zpow_mul]
  · intro p p' hp hp' hword
    cases power?_eq_some hp
    cases power?_eq_some hp'
    have hfits := (hpower a).productFits (hpower b)
    have hprod := (hpower a).multiplied (hpower b) (mul_ne_zero (hne a) (hne b))
    rw [← mul_add] at hfits
    rw [← zpow_add₀ h0, ← mul_add] at hprod
    refine ⟨_, if_pos (hfits.trans hword), hprod.beq (hmono (a + b)), fun p'' hp'' => ?_⟩
    cases power?_eq_some hp''
    exact hprod.beq (hpower (a + b))
  · intro hword
    have hinv := hm.reciprocal h0
    have hprod := hinv.multiplied hm (mul_ne_zero (inv_ne_zero h0) h0)
    have hfits := hinv.productFits hm
    rw [neg_add_cancel] at hfits
    rw [inv_mul_cancel₀ h0, neg_add_cancel] at hprod
    exact ⟨_, _, if_pos (hm.reciprocalFits.trans hword), if_pos (hfits.trans (by decide)),
      hprod.beq isTerm_one⟩

/-- The monomial `-2/4 x^-3`, its powers to `-2` and `5`, and the point `3/6`. -/
theorem power_monomial_of_negative_powers :
    let c : Fraction := .finite true 2 4
    let x : Fraction := .finite false 3 6
    (c.IsRational ∧ c.toRat ≠ 0 ∧ x.IsRational ∧ x.toRat ≠ 0) ∧
      ∃ p p' p'' r, (monomial c (-3)).power? (-2) = some p ∧ (monomial c (-3)).power? 5 = some p' ∧
        (monomial c (-3)).power? 3 = some p'' ∧ p.multiplied? p' = some r ∧
        (p == monomial (c.powInt (-2)) 6) = true ∧ (r == p'') = true ∧
        (p.eval x == ((monomial c (-3)).eval x).powInt (-2)) = true := by
  intro c x
  have hc : c.toRat ≠ 0 := by norm_num [c, Fraction.toRat, Fraction.signed]
  have hx : x.toRat ≠ 0 := by norm_num [x, Fraction.toRat, Fraction.signed]
  have hfits (a : ℤ) (ha : PowerFits (-3) a) : ∃ p, (monomial c (-3)).power? a = some p :=
    Option.isSome_iff_exists.1 ((power_monomial (c := c) (by decide) hc (-3) a 0).1.1.2 ha)
  obtain ⟨p, hp⟩ := hfits (-2) (by decide)
  obtain ⟨p', hp'⟩ := hfits 5 (by decide)
  obtain ⟨p'', hp''⟩ := hfits 3 (by decide)
  obtain ⟨⟨-, hpower⟩, hproduct, -⟩ := power_monomial (c := c) (by decide) hc (-3) (-2) 5
  obtain ⟨hmono, -, -, heval⟩ := hpower p hp
  obtain ⟨r, hr, -, hsum⟩ := hproduct p p' hp hp' (by decide)
  exact ⟨⟨by decide, hc, by decide, hx⟩, p, p', p'', r, hp, hp', hp'', hr, hmono, hsum p'' hp'',
    heval x (by decide) hx⟩

/-- The powers of `x ^ (2 ^ 62)` to `-1` and to `-2` both fit, the latter being `-2 ^ 63`. But the latter
is to be the reciprocal of `x ^ (2 ^ 63)`, and overflows. -/
theorem power_monomial_of_least_power :
    let m := monomial Fraction.one (2 ^ 62)
    (isWord (2 ^ 62) = true ∧ isWord (2 ^ 62 * -1) = true ∧ isWord (2 ^ 62 * (-1 + -1)) = true) ∧
      (m.power? (-1)).isSome = true ∧ m.power? (-1 + -1) = none := by
  intro m
  have hm : IsTerm 1 (2 ^ 62) m := .mk Fraction.isRational_one.1 Fraction.isRational_one.2
  refine ⟨by decide, ?_, ?_⟩
  · rw [hm.power? one_ne_zero, if_pos (by decide)]
    rfl
  · rw [hm.power? one_ne_zero, if_neg (by decide)]

end Laurent

end Formula
