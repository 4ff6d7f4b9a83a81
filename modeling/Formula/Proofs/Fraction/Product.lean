import Formula.Proofs.Fraction.Canonical
import Formula.Proofs.Fraction.Power

/-!
# Powers as repeated products

`powInt` squares along the bits of the exponent, and `product` multiplies one copy after the other. The
values of both are the power of the value, for infinities and NaN too, and both are in lowest terms; so
they are the same fraction (`mulPow_one_eq_product`). For a negative exponent one is divided by it
(`powInt_is_repeated_product`).
-/

namespace Formula.Fraction

variable {f : Fraction}

/-- The product of `n` copies of `f`, multiplied from the left to the right and starting from one. -/
def product (f : Fraction) (n : ℕ) : Fraction :=
  (List.replicate n f).foldl (· * ·) one

theorem product_zero (f : Fraction) : f.product 0 = one := rfl

theorem product_succ (f : Fraction) (n : ℕ) : f.product (n + 1) = f.product n * f := by
  rw [product, List.replicate_succ', List.foldl_append]
  rfl

/-- A property that one and all products have. -/
theorem product_of_mul {P : Fraction → Prop} (hone : P one) (hmul : ∀ f g, P (f * g))
    (f : Fraction) (n : ℕ) : P (f.product n) := by
  cases n with
  | zero => exact hone
  | succ n =>
    rw [product_succ]
    exact hmul _ _

theorem wellFormed_product (f : Fraction) (n : ℕ) : (f.product n).WellFormed :=
  product_of_mul wellFormed_one wellFormed_mul f n

theorem value_product (hf : f.WellFormed) (n : ℕ) : (f.product n).value = f.value ^ n := by
  induction n with
  | zero => rw [product_zero, value_one, pow_zero]
  | succ n ih => rw [product_succ, value_mul (wellFormed_product f n) hf, ih, pow_succ]

/-- Squaring along the bits of the exponent gives the very fraction that the repeated product is. -/
theorem mulPow_one_eq_product (hf : f.WellFormed) (n : ℕ) : mulPow one f n = f.product n := by
  have hpow : (mulPow one f n).simplified = mulPow one f n :=
    mulPow_of_mul (P := fun g => g.simplified = g) simplified_mul f n rfl
  have hproduct : (f.product n).simplified = f.product n :=
    product_of_mul (P := fun g => g.simplified = g) rfl simplified_mul f n
  have hvalue : (mulPow one f n).value = (f.product n).value := by
    rw [value_mulPow n wellFormed_one hf, value_one, one_mul, value_product hf]
  rw [← hpow, ← hproduct]
  exact simplified_eq_of_value_eq (wellFormed_mulPow f n wellFormed_one) (wellFormed_product f n) hvalue

/-- The magnitude of a 64-bit integer is a word, that of the least one too. -/
theorem toNat_abs_word (k : Int64) : k.abs.toUInt64.toNat = k.toInt.natAbs := by
  change k.toBitVec.abs.toNat = k.toBitVec.toInt.natAbs
  rw [BitVec.toNat_abs, BitVec.toInt_eq_msb_cond]
  split_ifs <;> omega

/-- An integer power is the product of as many copies as the magnitude of the exponent says, and one
divided by it if the exponent is negative. For a rational number it is the exact power, unless the
exponent is negative and the number zero. The exponent zero gives one, for NaN too. For an exponent of 64
bits the loop runs over the bits of a word, which is the magnitude of the exponent even for the least
one. -/
theorem powInt_is_repeated_product (hf : f.WellFormed) (n : ℤ) :
    f.powInt n = (if n < 0 then one / f.product n.natAbs else f.product n.natAbs) ∧
      (∀ q : ℚ, f.value = .finite q → 0 ≤ n ∨ q ≠ 0 → (f.powInt n).value = .finite (q ^ n)) ∧
      f.powInt 0 = one ∧
      ∀ k : Int64, f.powInt k.toInt =
        if k < 0 then one / mulPow one f k.abs.toUInt64.toNat
        else mulPow one f k.abs.toUInt64.toNat := by
  refine ⟨?_, fun q hq hbase => ?_, ?_, fun k => ?_⟩
  · rw [powInt, mulPow_one_eq_product hf]
  · rw [value_powInt n hf, hq]
    exact Extended.finite_zpow hbase
  · rw [powInt, mulPow_one_eq_product hf]
    rfl
  · have hsign : k.toInt < 0 ↔ k < 0 := by rw [Int64.lt_iff_toInt_lt, Int64.toInt_zero]
    rw [powInt, toNat_abs_word]
    exact if_congr hsign rfl rfl

/-- The power of `-2 / 2`, which is not reduced, to the least 64-bit integer, the powers of an infinity
to a negative and of NaN to the zero exponent. -/
theorem powInt_is_repeated_product_of_least_exponent :
    (finite true 2 2).WellFormed ∧ (finite true 2 2).value = .finite (-1) ∧
      ((finite true 2 2).powInt (-wordBound)).value = .finite 1 ∧
      (infinite true).powInt (-3) =
        one / (one * infinite true * infinite true * infinite true) ∧
      nan.powInt 0 = one := by
  have hvalue : (finite true 2 2).value = .finite (-1) := by
    rw [value_finite]
    norm_num [signed]
  obtain ⟨-, hexact, -⟩ :=
    powInt_is_repeated_product (f := finite true 2 2) (by decide) (-wordBound)
  obtain ⟨hinfinite, -⟩ := powInt_is_repeated_product (f := infinite true) trivial (-3)
  obtain ⟨-, -, hnan, -⟩ := powInt_is_repeated_product (f := nan) trivial 0
  refine ⟨by decide, hvalue, ?_, hinfinite, hnan⟩
  have heven : Even (-(wordBound : ℤ)) := by decide
  rw [hexact (-1) hvalue (.inr (by norm_num)), heven.neg_one_zpow]

end Formula.Fraction
