import Formula.Proofs.Fraction.Order

/-!
# Powers of fractions

`powInt` squares along the bits of the exponent; its value is the power of the value
(`value_powInt`). Exponents that stand for a small integer are recognised whether they are in lowest
terms or not (`exactExponent?_eq`), so `value_pow` holds for all of them; of the great ones only the
least 64-bit integer passes for a small one (`pow_of_whole_exponent`).
-/

namespace Formula

namespace Fraction

/-! ## Powers -/

/-- What one step of the loop makes of the product so far. -/
def mulBit (acc base : Fraction) (n : ℕ) : Fraction :=
  if n % 2 = 1 then acc * base else acc

/-- A property that all products have is kept by the step. -/
theorem mulBit_of_mul {P : Fraction → Prop} (hmul : ∀ f g, P (f * g)) {acc : Fraction}
    (base : Fraction) (n : ℕ) (h : P acc) : P (mulBit acc base n) := by
  unfold mulBit
  split_ifs
  · exact hmul _ _
  · exact h

theorem value_mulBit {acc base : Fraction} (n : ℕ) (hacc : acc.WellFormed)
    (hbase : base.WellFormed) :
    (mulBit acc base n).value = acc.value * base.value ^ (n % 2) := by
  unfold mulBit
  rcases Nat.mod_two_eq_zero_or_one n with h | h
  · simp [h]
  · simp [h, value_mul hacc hbase]

theorem mulPow_of_ne_zero (acc base : Fraction) {n : ℕ} (hn : n ≠ 0) :
    mulPow acc base n =
      if n / 2 = 0 then mulBit acc base n else mulPow (mulBit acc base n) (base * base) (n / 2) := by
  rw [mulPow, if_neg hn]
  rfl

/-- A property that all products have is kept by the loop. -/
theorem mulPow_of_mul {P : Fraction → Prop} (hmul : ∀ f g, P (f * g)) {acc : Fraction}
    (base : Fraction) (n : ℕ) (h : P acc) : P (mulPow acc base n) := by
  induction n using Nat.strong_induction_on generalizing acc base with
  | _ n ih =>
    by_cases hn : n = 0
    · rw [mulPow, if_pos hn]
      exact h
    · rw [mulPow_of_ne_zero _ _ hn]
      split_ifs
      · exact mulBit_of_mul hmul _ _ h
      · exact ih (n / 2) (by omega) _ (mulBit_of_mul hmul _ _ h)

theorem wellFormed_mulPow {acc : Fraction} (base : Fraction) (n : ℕ) (h : acc.WellFormed) :
    (mulPow acc base n).WellFormed :=
  mulPow_of_mul wellFormed_mul base n h

theorem value_mulPow {acc base : Fraction} (n : ℕ) (hacc : acc.WellFormed)
    (hbase : base.WellFormed) : (mulPow acc base n).value = acc.value * base.value ^ n := by
  induction n using Nat.strong_induction_on generalizing acc base with
  | _ n ih =>
    by_cases hn : n = 0
    · rw [mulPow, if_pos hn, hn, pow_zero, mul_one]
    -- the lowest bit goes into `acc`, the others into the square
    have hsplit : base.value ^ n = base.value ^ (n % 2) * (base.value * base.value) ^ (n / 2) := by
      rw [← pow_two, ← pow_mul, ← pow_add]
      congr 1
      omega
    rw [mulPow_of_ne_zero _ _ hn]
    split_ifs with hrest
    · rw [value_mulBit n hacc hbase, hsplit, hrest, pow_zero, mul_one]
    · rw [ih (n / 2) (by omega) (mulBit_of_mul wellFormed_mul _ _ hacc) (wellFormed_mul _ _),
        value_mulBit n hacc hbase, value_mul hbase hbase, hsplit, mul_assoc]

theorem wellFormed_powInt (f : Fraction) (n : ℤ) : (f.powInt n).WellFormed := by
  rw [powInt]
  split_ifs
  · exact wellFormed_div _ _
  · exact wellFormed_mulPow _ _ wellFormed_one

theorem value_powInt {f : Fraction} (n : ℤ) (hf : f.WellFormed) :
    (f.powInt n).value = f.value.zpow n := by
  have hpow : (mulPow one f n.natAbs).value = f.value ^ n.natAbs := by
    rw [value_mulPow _ wellFormed_one hf, value_one, one_mul]
  rw [powInt, Extended.zpow]
  split_ifs
  · rw [value_div wellFormed_one (wellFormed_mulPow _ _ wellFormed_one), hpow, value_one, one_mul]
  · exact hpow

/-- The fraction with its quotient carried out: a zero denominator gives an infinity or NaN, and
zero has no sign. -/
def normalized : Fraction → Fraction
  | finite negative numerator denominator => ofParts negative numerator denominator
  | f => f

theorem wellFormed_normalized (f : Fraction) : f.normalized.WellFormed := by
  cases f with
  | finite a n d => exact wellFormed_ofParts a n d
  | infinite a => trivial
  | nan => trivial

theorem one_mul_normalized (f : Fraction) : one * f.normalized = one * f := by
  cases f with
  | finite a n d =>
    change one.mul (ofParts a n d) = one.mul (finite a n d)
    by_cases hd : d = 0
    · by_cases hn : n = 0
      · simp [ofParts, mul, one, simplified, hd, hn]
      · have h₁ : (finite false 1 1).isZero = false := rfl
        have h₂ : (infinite a).isZero = false := rfl
        simp [ofParts, mul, one, simplified, hd, hn, isNegative, h₁, h₂]
    · simp [ofParts, mul, one, hd]
  | infinite a => rfl
  | nan => rfl

theorem mul_self_normalized (f : Fraction) : f.normalized * f.normalized = f * f := by
  cases f with
  | finite a n d =>
    change (ofParts a n d).mul (ofParts a n d) = (finite a n d).mul (finite a n d)
    by_cases hd : d = 0
    · by_cases hn : n = 0
      · simp [ofParts, mul, simplified, hd, hn]
      · have h : (infinite a).isZero = false := rfl
        simp [ofParts, mul, simplified, hd, hn, h]
    · simp [ofParts, mul, hd]
  | infinite a => rfl
  | nan => rfl

/-- Powers only depend on the quotient: the first products of the loop carry it out. -/
theorem powInt_normalized (f : Fraction) (n : ℤ) : f.normalized.powInt n = f.powInt n := by
  have hpow : mulPow one f.normalized n.natAbs = mulPow one f n.natAbs := by
    by_cases hn : n.natAbs = 0
    · rw [hn, mulPow, mulPow, if_pos rfl, if_pos rfl]
    · rw [mulPow_of_ne_zero _ _ hn, mulPow_of_ne_zero _ _ hn, mul_self_normalized, mulBit,
        one_mul_normalized, mulBit]
  rw [powInt, hpow, powInt]

/-! ## Whole exponents -/

/-- The numerator of a fraction that stands for an integer, once it is truncated. -/
theorem signedNumerator?_trunc {a : Bool} {n d : ℕ} {k : ℤ} (hf : (finite a n d).WellFormed)
    (hk : (signed a n : ℚ) / d = k) : (finite a n d).trunc.signedNumerator? = some k := by
  have htr : signed a (n / d) = k := by
    rw [← truncate_signed hf, hk, Extended.truncate]
    split_ifs <;> simp
  rw [trunc, ofParts, if_neg one_ne_zero, signedNumerator?]
  by_cases hz : n / d = 0
  · rw [hz, signed_zero] at htr ⊢
    rw [htr]
  · rw [bne_iff_ne.2 hz, Bool.and_true, htr]

theorem wordBound_eq : (wordBound : ℤ) = 9223372036854775808 := rfl

/-- The absolute value of a 64-bit integer overflows at the least one only. -/
theorem toInt_abs_ofInt {n : ℤ} (hlow : -(wordBound : ℤ) < n) (hhigh : n < wordBound) :
    (Int64.ofInt n).abs.toInt = |n| := by
  have hw := wordBound_eq
  have hto : (Int64.ofInt n).toInt = n := Int64.toInt_ofInt_of_le (by omega) (by omega)
  have hmin : (Int64.ofInt n).toBitVec ≠ BitVec.intMin 64 := by
    intro hb
    have hi : (Int64.ofInt n).toInt = (BitVec.intMin 64).toInt := congrArg BitVec.toInt hb
    rw [hto] at hi
    have : (BitVec.intMin 64).toInt = -9223372036854775808 := by decide
    omega
  have hab : (Int64.ofInt n).abs.toInt = ((Int64.ofInt n).toInt.natAbs : ℤ) :=
    BitVec.toInt_abs_eq_natAbs_of_ne_intMin hmin
  rw [hab, hto, Int.abs_eq_natAbs]

theorem toInt_abs_ofInt_least : (Int64.ofInt (-wordBound)).abs.toInt = -wordBound := by decide

/-- The integers that pass the test for repeated multiplication. The least 64-bit integer is one of
them, as it is its own absolute value. -/
theorem abs_ofInt_le_iff {n : ℤ} :
    -(wordBound : ℤ) ≤ n ∧ n < wordBound ∧ (Int64.ofInt n).abs ≤ exactPowerLimit ↔
      |n| ≤ 4096 ∨ n = -wordBound := by
  have hw := wordBound_eq
  have hl : exactPowerLimit.toInt = 4096 := by decide
  rw [Int64.le_iff_toInt_le, hl]
  by_cases hleast : n = -wordBound
  · rw [hleast, toInt_abs_ofInt_least]
    omega
  · constructor
    · rintro ⟨hlow, hhigh, hle⟩
      rw [toInt_abs_ofInt (by omega) hhigh] at hle
      exact .inl hle
    · intro h
      have hn := abs_le.1 (h.resolve_right hleast)
      refine ⟨by omega, by omega, ?_⟩
      rw [toInt_abs_ofInt (by omega) (by omega)]
      exact h.resolve_right hleast

/-- A fraction that stands for an integer is an exact exponent if the integer passes the test. -/
theorem exactExponent?_eq {f : Fraction} {n : ℤ} (hf : f.WellFormed) (hv : f.value = .finite n) :
    f.exactExponent? = if |n| ≤ 4096 ∨ n = -wordBound then some n else none := by
  cases f with
  | infinite a => simp at hv
  | nan => simp at hv
  | finite a m d =>
    have hk : (signed a m : ℚ) / d = n := by simpa [value_finite] using hv
    rw [exactExponent?, if_pos ((isWhole_iff hf).2 ⟨n, hk⟩), signedNumerator?_trunc hf hk]
    exact if_congr abs_ofInt_le_iff rfl rfl

theorem pow_of_exactExponent? (f : Fraction) {g : Fraction} {n : ℤ}
    (h : g.exactExponent? = some n) : f.pow g = f.powInt n := by
  rw [pow, h]

theorem value_pow {f g : Fraction} {n : ℤ} (hf : f.WellFormed) (hg : g.WellFormed)
    (hv : g.value = .finite n) (hn : |n| ≤ 4096) : (f.pow g).value = f.value.zpow n := by
  have hexp : g.exactExponent? = some n := by rw [exactExponent?_eq hg hv, if_pos (.inl hn)]
  rw [pow_of_exactExponent? f hexp]
  exact value_powInt n hf

/-- Exponents of whole value are raised to by repeated multiplication if their magnitude is at most
4096, and then the power is exact. Beyond that the power comes from 64-bit numbers, with one
exception: the absolute value of the least 64-bit integer overflows to a negative number, which
passes for a small one. -/
theorem pow_of_whole_exponent {f g : Fraction} {n : ℤ} (hf : f.WellFormed) (hg : g.WellFormed)
    (hv : g.value = .finite n) :
    (-(wordBound : ℤ) ≤ n → n < wordBound →
        ((Int64.ofInt n).abs.toInt = |n| ↔ n ≠ -wordBound)) ∧
      (|n| ≤ 4096 ∨ n = -wordBound →
        g.exactExponent? = some n ∧ f.pow g = f.powInt n ∧
          ∀ q, f.value = .finite q → 0 ≤ n ∨ q ≠ 0 → (f.pow g).value = .finite (q ^ n)) ∧
      (4096 < |n| → n ≠ -wordBound →
        g.exactExponent? = none ∧ f.pow g = ofDouble (Float.pow f.toDouble g.toDouble)) := by
  have hexp := exactExponent?_eq hg hv
  refine ⟨fun hlow hhigh => ?_, fun hn => ?_, fun hlarge hleast => ?_⟩
  · by_cases hleast : n = -wordBound
    · have hpos : |-(wordBound : ℤ)| = wordBound := by decide
      have hw := wordBound_eq
      rw [hleast, toInt_abs_ofInt_least, hpos]
      omega
    · exact iff_of_true (toInt_abs_ofInt (by omega) hhigh) hleast
  · rw [if_pos hn] at hexp
    have hpow := pow_of_exactExponent? f hexp
    refine ⟨hexp, hpow, fun q hq hbase => ?_⟩
    rw [hpow, value_powInt n hf, hq]
    exact Extended.finite_zpow hbase
  · rw [if_neg (not_or.2 ⟨hlarge.not_ge, hleast⟩)] at hexp
    exact ⟨hexp, by rw [pow, hexp]⟩

/-- The exponent `-6/2` stands for `-3`, and the power of `2/3` is exact. -/
theorem pow_of_unreduced_exponent :
    (finite true 6 2).value = .finite (-3 : ℤ) ∧ (finite true 6 2).exactExponent? = some (-3) ∧
      ((finite false 2 3).pow (finite true 6 2)).value = .finite ((2 / 3) ^ (-3 : ℤ)) := by
  have hv : (finite true 6 2).value = .finite (-3 : ℤ) := by
    rw [value_finite]
    norm_num [signed]
  have hbase : (finite false 2 3).value = .finite (2 / 3) := by
    rw [value_finite]
    norm_num [signed]
  obtain ⟨-, hsmall, -⟩ :=
    pow_of_whole_exponent (f := finite false 2 3) (g := finite true 6 2) (by decide) (by decide) hv
  obtain ⟨hexp, -, hvalue⟩ := hsmall (.inl (by decide))
  exact ⟨hv, hexp, hvalue (2 / 3) hbase (.inr (by norm_num))⟩

/-- At the exponent `-2 ^ 63` the absolute value overflows, and `3/2` is multiplied repeatedly. -/
theorem pow_of_least_exponent :
    (finite true wordBound 1).WellFormed ∧
      (finite true wordBound 1).value = .finite (-(wordBound : ℤ) : ℤ) ∧
      4096 < |-(wordBound : ℤ)| ∧ (Int64.ofInt (-wordBound)).abs.toInt ≠ |-(wordBound : ℤ)| ∧
      (finite true wordBound 1).exactExponent? = some (-(wordBound : ℤ)) ∧
      (finite false 3 2).pow (finite true wordBound 1) =
        (finite false 3 2).powInt (-wordBound) := by
  have hwf : (finite true wordBound 1).WellFormed := by decide
  have hv : (finite true wordBound 1).value = .finite (-(wordBound : ℤ) : ℤ) := by
    rw [value_finite, Nat.cast_one, div_one]
    rfl
  have hexp : (finite true wordBound 1).exactExponent? = some (-(wordBound : ℤ)) := by
    rw [exactExponent?_eq hwf hv, if_pos (.inr rfl)]
  exact ⟨hwf, hv, by decide, by decide, hexp, pow_of_exactExponent? _ hexp⟩

/-- The magnitude of an exponent overflows at the value `-2 ^ 63` only. -/
theorem exponentFits_iff {f : Fraction} (hf : f.WellFormed) :
    f.exponentFits = true ↔ f.value ≠ .finite (-(wordBound : ℤ) : ℤ) := by
  cases f with
  | infinite a => exact iff_of_true rfl nofun
  | nan => exact iff_of_true rfl nofun
  | finite a m d =>
    rw [value_finite, Ne, Extended.finite.injEq]
    by_cases hw : (finite a m d).isWhole = true
    · obtain ⟨n, hn⟩ := (isWhole_iff hf).1 hw
      rw [exponentFits, hw, signedNumerator?_trunc hf hn, hn, Int.cast_inj]
      simp
    · have hfits : (finite a m d).exponentFits = true := by
        rw [exponentFits, Bool.eq_false_iff.2 hw]
        rfl
      exact iff_of_true hfits fun h => hw ((isWhole_iff hf).2 ⟨_, h⟩)

/-- Apart from the exponent `-2 ^ 63`, at which the program ends, the power is that of `pow`. -/
theorem pow?_eq_some_iff {f g h : Fraction} (hg : g.WellFormed) :
    f.pow? g = some h ↔ g.value ≠ .finite (-(wordBound : ℤ) : ℤ) ∧ f.pow g = h := by
  rw [← exponentFits_iff hg, pow?]
  split_ifs with hfits <;> simp [hfits]

theorem wellFormed_ofDouble (x : Float) : (ofDouble x).WellFormed := by
  unfold ofDouble
  split
  · trivial
  · trivial
  · exact wellFormed_simplified (wellFormed_ofParts _ _ _)

theorem wellFormed_pow (f g : Fraction) : (f.pow g).WellFormed := by
  unfold pow
  split
  · exact wellFormed_powInt _ _
  · exact wellFormed_ofDouble _

end Fraction

end Formula
