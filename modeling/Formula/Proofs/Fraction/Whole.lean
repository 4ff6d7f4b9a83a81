import Formula.Proofs.Binary.Nearest
import Formula.Proofs.Fraction.Power
import Formula.Proofs.Fraction.Rounding

/-!
# Whole values

`Value.toWhole?` tests on the exact terms of a fraction whether it is an integer, but takes the integer
from a 64-bit number. If the terms have more than 53 bits, this number is off by up to `2 ^ -51` of the
integer, and its integer part by one more. Integers of at most `2 ^ 53` in lowest terms are exact.
-/

namespace Formula

/-- The integer part of a 64-bit number is that of its value. -/
theorem Floating.truncate_eq {x : Float} {q : ℚ} (h : Floating.value x = .finite q) :
    Floating.truncate x = Extended.truncate q := by
  obtain ⟨a, m, e, hx, rfl⟩ := Fraction.exists_decode_of_value h
  have htrunc : Floating.truncate x =
      Fraction.signed a (m * Nat.pow 2 e.toNat / Nat.pow 2 (-e).toNat) := by
    simp only [Floating.truncate, hx]
    rfl
  rw [htrunc, two_zpow_eq, ← mul_div_assoc]
  by_cases hm : m = 0
  · rw [hm, Nat.zero_mul, Nat.zero_div, Fraction.signed_zero, Int.cast_zero, zero_mul, zero_div]
    exact (Extended.truncate_intCast 0).symm
  · have hwf : (Fraction.finite a (m * 2 ^ e.toNat) (2 ^ (-e).toNat)).WellFormed := by
      refine ⟨(Nat.two_pow_pos _).ne', fun hzero => ?_⟩
      exact absurd hzero (Nat.mul_ne_zero hm (Nat.two_pow_pos _).ne')
    have hsigned := Fraction.truncate_signed hwf
    rw [Fraction.signed_mul_natCast] at hsigned
    push_cast at hsigned
    exact hsigned.symm

theorem Value.toWhole?_eq_some_iff {f : Fraction} {n : ℤ} :
    (Value.fraction f).toWhole? = some n ↔ f.isWhole = true ∧
      ∃ q, Floating.value f.toDouble = .finite q ∧ Extended.truncate q = n ∧
        n.natAbs < Fraction.wordBound := by
  have hwhole : (Value.fraction f).isWhole = f.isWhole := rfl
  have hdouble : (Value.fraction f).toDouble = f.toDouble := rfl
  rw [Value.toWhole?, hwhole, hdouble]
  by_cases hf : f.isWhole = true
  · rw [if_pos hf]
    cases hx : Floating.decode f.toDouble with
    | finite a m e =>
      have hvalue : Floating.value f.toDouble = .finite (Fraction.signed a m * 2 ^ e) :=
        congrArg Binary.value hx
      simp only [Floating.truncate_eq hvalue, hvalue, Extended.finite.injEq, exists_eq_left', hf,
        true_and]
      split_ifs with hlt
      · rw [Option.some.injEq]
        exact ⟨fun h => ⟨h, h ▸ hlt⟩, fun h => h.1⟩
      · exact iff_of_false nofun fun h => hlt (h.1 ▸ h.2)
    | infinite a =>
      have hvalue : Floating.value f.toDouble = .infinite a := congrArg Binary.value hx
      simp [hvalue]
    | nan =>
      have hvalue : Floating.value f.toDouble = .nan := congrArg Binary.value hx
      simp [hvalue]
  · rw [if_neg hf]
    exact iff_of_false nofun fun h => hf h.1

namespace Fraction

variable {k d s : ℕ}

/-! ## The quotient of the rounded terms -/

section Quotient

variable {x a b a' b' u : ℚ}

theorem le_quotient (hu : 0 ≤ u) (hu' : u ≤ 1 / 16) (hx : 0 ≤ x) (hb : 0 < b)
    (ha' : |a' - a| ≤ a * u) (hb' : |b' - b| ≤ b * u) (hle : x * b ≤ a) :
    x * (1 - 2 * u) ≤ a' / b' := by
  obtain ⟨halow, -⟩ := abs_le.1 ha'
  obtain ⟨hblow, hbhigh⟩ := abs_le.1 hb'
  have hpos : 0 < b' := by nlinarith
  rw [le_div_iff₀ hpos]
  have hscale : (0 : ℚ) ≤ 1 - 2 * u := by linarith
  calc x * (1 - 2 * u) * b' ≤ x * (1 - 2 * u) * (b * (1 + u)) :=
        mul_le_mul_of_nonneg_left (by linarith) (mul_nonneg hx hscale)
    _ = x * b * ((1 - 2 * u) * (1 + u)) := by ring
    _ ≤ x * b * (1 - u) := mul_le_mul_of_nonneg_left (by nlinarith) (mul_nonneg hx hb.le)
    _ ≤ a * (1 - u) := mul_le_mul_of_nonneg_right hle (by linarith)
    _ ≤ a' := by linarith

theorem quotient_le (hu : 0 ≤ u) (hu' : u ≤ 1 / 16) (hx : 0 ≤ x) (hb : 0 < b)
    (ha' : |a' - a| ≤ a * u) (hb' : |b' - b| ≤ b * u) (hle : a ≤ x * b * (1 + u / 4)) :
    a' / b' ≤ x * (1 + 5 / 2 * u) := by
  obtain ⟨-, hahigh⟩ := abs_le.1 ha'
  obtain ⟨hblow, hbhigh⟩ := abs_le.1 hb'
  have hpos : 0 < b' := by nlinarith
  rw [div_le_iff₀ hpos]
  calc a' ≤ a * (1 + u) := by linarith
    _ ≤ x * b * (1 + u / 4) * (1 + u) := mul_le_mul_of_nonneg_right hle (by linarith)
    _ = x * b * ((1 + u / 4) * (1 + u)) := by ring
    _ ≤ x * b * ((1 + 5 / 2 * u) * (1 - u)) :=
        mul_le_mul_of_nonneg_left (by nlinarith) (mul_nonneg hx hb.le)
    _ = x * (1 + 5 / 2 * u) * (b * (1 - u)) := by ring
    _ ≤ x * (1 + 5 / 2 * u) * b' :=
        mul_le_mul_of_nonneg_left (by linarith) (mul_nonneg hx (by linarith))

theorem le_rounded (hu : 0 ≤ u) (hu' : u ≤ 1 / 16) (hx : 0 ≤ x) (ha' : |a' - a| ≤ a * u)
    (hle : x * (1 - 2 * u) ≤ a) : x * (1 - 3 * u) ≤ a' := by
  obtain ⟨halow, -⟩ := abs_le.1 ha'
  calc x * (1 - 3 * u) ≤ x * ((1 - 2 * u) * (1 - u)) :=
        mul_le_mul_of_nonneg_left (by nlinarith only [hu]) hx
    _ = x * (1 - 2 * u) * (1 - u) := by ring
    _ ≤ a * (1 - u) := mul_le_mul_of_nonneg_right hle (by linarith only [hu'])
    _ ≤ a' := by linarith only [halow]

theorem rounded_le (hu : 0 ≤ u) (hu' : u ≤ 1 / 16) (hx : 0 ≤ x) (ha' : |a' - a| ≤ a * u)
    (hle : a ≤ x * (1 + 5 / 2 * u)) : a' ≤ x * (1 + 4 * u) := by
  obtain ⟨-, hahigh⟩ := abs_le.1 ha'
  calc a' ≤ a * (1 + u) := by linarith only [hahigh]
    _ ≤ x * (1 + 5 / 2 * u) * (1 + u) := mul_le_mul_of_nonneg_right hle (by linarith only [hu])
    _ = x * ((1 + 5 / 2 * u) * (1 + u)) := by ring
    _ ≤ x * (1 + 4 * u) := mul_le_mul_of_nonneg_left (by nlinarith only [hu, hu']) hx

end Quotient

/-! ## Shifted terms -/

/-- A shift of both terms can only make the quotient of a multiple greater. -/
theorem mul_div_le_div (k d s : ℕ) : k * (d / 2 ^ s) ≤ k * d / 2 ^ s :=
  Nat.mul_div_le_mul_div_assoc k d (2 ^ s)

theorem div_le_mul_succ (k d s : ℕ) : k * d / 2 ^ s ≤ k * (d / 2 ^ s + 1) := by
  have hmod := Nat.div_add_mod d (2 ^ s)
  have hlt := Nat.mod_lt d (Nat.two_pow_pos s)
  rw [Nat.div_le_iff_le_mul_add_pred (Nat.two_pow_pos s)]
  nlinarith

/-- If the quotient is not too great, the shift leaves the denominator enough bits. -/
theorem shift_eq_zero_or_le (hk : k ≠ 0) (hlt : k ≤ 2 ^ 64)
    (hs : max (bitLength (k * d)) (bitLength d) - bitLimit = s) : s = 0 ∨ 2 ^ 55 ≤ d / 2 ^ s := by
  have hle : d ≤ k * d := Nat.le_mul_of_pos_left d (Nat.pos_of_ne_zero hk)
  have hlength : bitLength d ≤ bitLength (k * d) :=
    bitLength_le_iff.2 (hle.trans_lt (bitLength_le_iff.1 le_rfl))
  rw [max_eq_left hlength] at hs
  by_cases hzero : s = 0
  · exact .inl hzero
  · have hbits : ¬ bitLength (k * d) ≤ s + 999 := by
      have hlimit : bitLimit = 1000 := rfl
      omega
    rw [bitLength_le_iff, not_lt] at hbits
    refine .inr ((Nat.le_div_iff_mul_le (Nat.two_pow_pos s)).2 ?_)
    have hmul : 2 ^ (s + 935) * 2 ^ 64 ≤ d * 2 ^ 64 :=
      calc 2 ^ (s + 935) * 2 ^ 64 = 2 ^ (s + 999) := by rw [← pow_add]
        _ ≤ k * d := hbits
        _ ≤ d * 2 ^ 64 := by
          rw [mul_comm d]
          exact Nat.mul_le_mul_right d hlt
    calc 2 ^ 55 * 2 ^ s = 2 ^ (s + 55) := by rw [← pow_add, add_comm]
      _ ≤ 2 ^ (s + 935) := Nat.pow_le_pow_right two_pos (by omega)
      _ ≤ d := Nat.le_of_mul_le_mul_right hmul (by positivity)

/-! ## From an integer to a 64-bit number -/

/-- The greatest relative error of rounding to the 53 bits of a 64-bit number. -/
def unitRoundoff : ℚ := 1 / 2 ^ 53

theorem unitRoundoff_nonneg : 0 ≤ unitRoundoff := by norm_num [unitRoundoff]

theorem unitRoundoff_le : unitRoundoff ≤ 1 / 16 := by norm_num [unitRoundoff]

theorem abs_roundNat_sub_le (n : ℕ) :
    |(BinaryFormat.double.roundNat n : ℚ) - n| ≤ n * unitRoundoff := by
  rw [unitRoundoff, mul_one_div]
  exact BinaryFormat.abs_roundNat_sub_le .double n

theorem roundNat_ne_zero {n : ℕ} (hn : n ≠ 0) : BinaryFormat.double.roundNat n ≠ 0 := by
  intro hzero
  have herror := abs_roundNat_sub_le n
  have hpos : (0 : ℚ) < n := by exact_mod_cast Nat.pos_of_ne_zero hn
  rw [hzero, Nat.cast_zero, zero_sub, abs_neg, abs_of_pos hpos] at herror
  nlinarith [unitRoundoff_le]

/-- The quotient of the shifted and rounded terms of the integer `k`. -/
theorem rounded_quotient_bounds (hk : k ≠ 0) (hB : d / 2 ^ s ≠ 0)
    (hs : max (bitLength (k * d)) (bitLength d) - bitLimit = s) :
    k * (1 - 2 * unitRoundoff) ≤ (BinaryFormat.double.roundNat (k * d / 2 ^ s) : ℚ) /
        BinaryFormat.double.roundNat (d / 2 ^ s) ∧
      (k ≤ 2 ^ 64 → (BinaryFormat.double.roundNat (k * d / 2 ^ s) : ℚ) /
        BinaryFormat.double.roundNat (d / 2 ^ s) ≤ k * (1 + 5 / 2 * unitRoundoff)) := by
  have hB0 : (0 : ℚ) < (d / 2 ^ s : ℕ) := by exact_mod_cast Nat.pos_of_ne_zero hB
  have hk0 : (0 : ℚ) ≤ k := k.cast_nonneg
  have hunit := unitRoundoff_nonneg
  have hroundA := abs_roundNat_sub_le (k * d / 2 ^ s)
  have hroundB := abs_roundNat_sub_le (d / 2 ^ s)
  refine ⟨?_, fun hle => ?_⟩
  · apply le_quotient hunit unitRoundoff_le hk0 hB0 hroundA hroundB
    exact_mod_cast mul_div_le_div k d s
  · apply quotient_le hunit unitRoundoff_le hk0 hB0 hroundA hroundB
    obtain rfl | hbits := shift_eq_zero_or_le hk hle hs
    · rw [pow_zero, Nat.div_one, Nat.div_one, Nat.cast_mul]
      exact le_mul_of_one_le_right (mul_nonneg hk0 d.cast_nonneg) (by linarith only [hunit])
    · have hone : (1 : ℚ) ≤ (d / 2 ^ s : ℕ) * (unitRoundoff / 4) := by
        have hbits' : (2 : ℚ) ^ 55 ≤ (d / 2 ^ s : ℕ) := by exact_mod_cast hbits
        rw [unitRoundoff]
        linarith
      calc ((k * d / 2 ^ s : ℕ) : ℚ) ≤ k * ((d / 2 ^ s : ℕ) + 1) := by
            exact_mod_cast div_le_mul_succ k d s
        _ ≤ k * ((d / 2 ^ s : ℕ) + (d / 2 ^ s : ℕ) * (unitRoundoff / 4)) :=
            mul_le_mul_of_nonneg_left (by linarith only [hone]) hk0
        _ = k * (d / 2 ^ s : ℕ) * (1 + unitRoundoff / 4) := by ring

/-- The terms of the integer `k` over the denominator `d` lead to a number that is off by at most
`2 ^ -51` of `k`, unless `k` is beyond `2 ^ 64`. Beyond that the number is too great, if anything. -/
theorem value_ratioToDouble_multiple (a : Bool) (hk : k ≠ 0) (hd : d ≠ 0) :
    (Floating.value (ratioToDouble a (k * d) d) = .infinite a ∧ 2 ^ 64 < k) ∨
      ∃ q : ℚ, Floating.value (ratioToDouble a (k * d) d) = .finite (if a then -q else q) ∧
        k * (1 - 3 * unitRoundoff) ≤ q ∧ (k ≤ 2 ^ 64 → q ≤ k * (1 + 4 * unitRoundoff)) := by
  obtain ⟨s, hs⟩ : ∃ s, max (bitLength (k * d)) (bitLength d) - bitLimit = s := ⟨_, rfl⟩
  have hunit := unitRoundoff_nonneg
  have hunit' := unitRoundoff_le
  have hk1 : (1 : ℚ) ≤ k := by exact_mod_cast Nat.one_le_iff_ne_zero.2 hk
  by_cases hB : d / 2 ^ s = 0
  · refine .inl ⟨value_ratioToDouble_of_lost a hs hB, lt_of_not_ge fun hle => ?_⟩
    obtain rfl | hbits := shift_eq_zero_or_le hk hle hs
    · exact hd (by rwa [pow_zero, Nat.div_one] at hB)
    · omega
  · have hA : k * d / 2 ^ s ≠ 0 := by
      have hle := mul_div_le_div k d s
      have hpos := Nat.mul_pos (Nat.pos_of_ne_zero hk) (Nat.pos_of_ne_zero hB)
      omega
    have hcases := Floating.value_ofRatio_cases a (roundNat_ne_zero hA) (roundNat_ne_zero hB)
    have hbounds := rounded_quotient_bounds hk hB hs
    rw [ratioToDouble_eq a hs (roundNat_ne_zero hB)]
    generalize (BinaryFormat.double.roundNat (k * d / 2 ^ s) : ℚ) /
      BinaryFormat.double.roundNat (d / 2 ^ s) = quotient at hcases hbounds
    obtain ⟨hlow, hhigh⟩ := hbounds
    have hrange : (2 : ℚ) ^ (-1022 : ℤ) ≤ 1 / 2 := by
      rw [one_div, ← zpow_neg_one]
      exact zpow_le_zpow_right₀ one_le_two (by decide)
    have hhalf : 1 / 2 ≤ quotient := by nlinarith only [hlow, hk1, hunit']
    obtain ⟨hinf, hlarge⟩ | ⟨q, hq, herror⟩ := hcases (hrange.trans hhalf)
    · refine .inl ⟨hinf, lt_of_not_ge fun hle => ?_⟩
      have hk64 : (k : ℚ) ≤ 2 ^ 64 := by exact_mod_cast hle
      have hlt : (2 : ℚ) ^ 65 < 2 ^ 1023 := pow_lt_pow_right₀ one_lt_two (by decide)
      have hquot := hlt.trans_le (hlarge.trans (hhigh hle))
      nlinarith only [hquot, hk64, hunit', hk1]
    · rw [← mul_one_div _ (2 ^ 53 : ℚ), ← unitRoundoff] at herror
      have hk0 : (0 : ℚ) ≤ k := k.cast_nonneg
      exact .inr ⟨q, hq, le_rounded hunit hunit' hk0 herror hlow,
        fun hle => rounded_le hunit hunit' hk0 herror (hhigh hle)⟩

theorem value_ratioToDouble_zero (a : Bool) (hd : d ≠ 0) :
    Floating.value (ratioToDouble a 0 d) = .finite 0 := by
  obtain ⟨s, hs⟩ : ∃ s, max (bitLength 0) (bitLength d) - bitLimit = s := ⟨_, rfl⟩
  have hB : d / 2 ^ s ≠ 0 := by
    by_cases hzero : s = 0
    · rwa [hzero, pow_zero, Nat.div_one]
    · have hbits : ¬ bitLength d ≤ s := by
        have hlength : bitLength 0 = 0 := rfl
        have hlimit : bitLimit = 1000 := rfl
        omega
      rw [bitLength_le_iff, not_lt] at hbits
      exact (Nat.div_pos hbits (Nat.two_pow_pos s)).ne'
  have hround : BinaryFormat.double.roundNat 0 = 0 := by decide
  have hzero : ((0 : ℕ) : ℚ) / BinaryFormat.double.roundNat (d / 2 ^ s) = (0 : ℕ) * 2 ^ (0 : ℤ) := by
    simp
  have h := Floating.value_ofRatio a (roundNat_ne_zero hB) hzero (by decide) (by decide) (by simp)
  rw [ratioToDouble_eq a hs (roundNat_ne_zero hB), Nat.zero_div, hround, h, signed_zero,
    Int.cast_zero, zero_div]

/-- The naturals up to `2 ^ 53` have 53 significant bits. -/
theorem exists_significand {n : ℕ} (hn : n ≤ 2 ^ 53) : ∃ m i, m < 2 ^ 53 ∧ n = m * 2 ^ i := by
  by_cases hlt : n < 2 ^ 53
  · exact ⟨n, 0, hlt, by rw [pow_zero, mul_one]⟩
  · exact ⟨1, 53, by decide, by omega⟩

theorem roundNat_eq_self {n : ℕ} (hn : n ≤ 2 ^ 53) : BinaryFormat.double.roundNat n = n := by
  obtain ⟨m, i, hm, rfl⟩ := exists_significand hn
  exact BinaryFormat.roundNat_eq hm

/-- Terms of at most `2 ^ 53` are not rounded, and neither is their quotient if it is an integer. -/
theorem value_ratioToDouble_of_le (a : Bool) (hd : d ≠ 0) (hnum : k * d ≤ 2 ^ 53)
    (hden : d ≤ 2 ^ 53) : Floating.value (ratioToDouble a (k * d) d) = .finite (signed a k) := by
  have hlength : ∀ n ≤ 2 ^ 53, bitLength n ≤ bitLimit := fun n hn =>
    bitLength_le_iff.2 (hn.trans_lt (pow_lt_pow_right₀ one_lt_two (by decide)))
  have hs : max (bitLength (k * d)) (bitLength d) - bitLimit = 0 :=
    Nat.sub_eq_zero_of_le (max_le (hlength _ hnum) (hlength _ hden))
  have hd0 : (d : ℚ) ≠ 0 := by exact_mod_cast hd
  have hk : k ≤ 2 ^ 53 := (Nat.le_mul_of_pos_right k (Nat.pos_of_ne_zero hd)).trans hnum
  obtain ⟨m, i, hm, hki⟩ := exists_significand hk
  have hquot : ((k * d : ℕ) : ℚ) / d = k := by rw [Nat.cast_mul, mul_div_cancel_right₀ _ hd0]
  have hvalue : ((k * d : ℕ) : ℚ) / d = m * 2 ^ (i : ℤ) := by
    rw [hquot, hki, zpow_natCast]
    push_cast
    rfl
  have hlt : ((k * d : ℕ) : ℚ) / d < 2 ^ 1024 := by
    have hk' : (k : ℚ) ≤ 2 ^ 53 := by exact_mod_cast hk
    rw [hquot]
    exact hk'.trans_lt (pow_lt_pow_right₀ one_lt_two (by decide))
  have hround : BinaryFormat.double.roundNat (d / 2 ^ 0) = d := by
    rw [pow_zero, Nat.div_one, roundNat_eq_self hden]
  rw [ratioToDouble_eq a hs (by rwa [hround]), hround, pow_zero, Nat.div_one, roundNat_eq_self hnum,
    Floating.value_ofRatio a hd hvalue hm (by omega) hlt, signed_mul_natCast, Int.cast_mul,
    Int.cast_natCast, mul_div_cancel_right₀ _ hd0]

/-! ## The integer of a fraction -/

variable {f : Fraction} {a : Bool} {m : ℕ}

theorem abs_ite_neg (a : Bool) (q : ℚ) : |if a then -q else q| = |q| := by
  cases a with
  | false => rfl
  | true => exact abs_neg q

/-- The numerator of a fraction that stands for an integer. -/
theorem terms_of_whole {n : ℤ} (hf : (finite a m d).WellFormed) (hv : (signed a m : ℚ) / d = n) :
    m = n.natAbs * d ∧ signed a n.natAbs = n := by
  have htr : signed a (m / d) = n := by
    rw [← truncate_signed hf, hv, Extended.truncate_intCast]
  have habs : m / d = n.natAbs := by rw [← htr, natAbs_signed]
  have hmod : m % d = 0 := beq_iff_eq.1 ((isWhole_iff hf).2 ⟨n, hv⟩)
  refine ⟨?_, by rwa [← habs]⟩
  rw [← habs, Nat.div_mul_cancel (Nat.dvd_of_mod_eq_zero hmod)]

/-- What a fraction that stands for an integer becomes as a 64-bit number: infinite or off by at most
`2 ^ -51` of the integer, unless this is beyond `2 ^ 64`. -/
theorem value_toDouble_of_whole {n : ℤ} (hf : f.WellFormed) (hv : f.value = .finite n) :
    f.isWhole = true ∧
      ((∃ a, Floating.value f.toDouble = .infinite a) ∧ 2 ^ 64 < n.natAbs ∨
        ∃ q : ℚ, Floating.value f.toDouble = .finite q ∧
          n.natAbs * (1 - 3 * unitRoundoff) ≤ |q| ∧
          (n.natAbs ≤ 2 ^ 64 → |q - n| ≤ n.natAbs * (4 * unitRoundoff))) := by
  cases f with
  | infinite a => simp at hv
  | nan => simp at hv
  | finite a m d =>
    rw [value_finite, Extended.finite.injEq] at hv
    obtain ⟨hm, hsigned⟩ := terms_of_whole hf hv
    refine ⟨(isWhole_iff hf).2 ⟨n, hv⟩, ?_⟩
    rw [toDouble, hm]
    by_cases hzero : n.natAbs = 0
    · refine .inr ⟨0, ?_, ?_, fun _ => ?_⟩
      · rw [hzero, Nat.zero_mul]
        exact value_ratioToDouble_zero a hf.1
      · rw [hzero, Nat.cast_zero, zero_mul, abs_zero]
      · rw [hzero, Int.natAbs_eq_zero.1 hzero, Int.cast_zero, sub_zero, abs_zero, Nat.cast_zero,
          zero_mul]
    · obtain ⟨hinf, hlarge⟩ | ⟨q, hq, hlow, hhigh⟩ := value_ratioToDouble_multiple a hzero hf.1
      · exact .inl ⟨⟨a, hinf⟩, hlarge⟩
      · have hunit := unitRoundoff_nonneg
        have hunit' := unitRoundoff_le
        have hn0 : (0 : ℚ) ≤ n.natAbs := Nat.cast_nonneg _
        have hpos : 0 ≤ q := le_trans (mul_nonneg hn0 (by linarith)) hlow
        refine .inr ⟨_, hq, ?_, fun hle => ?_⟩
        · rwa [abs_ite_neg, abs_of_nonneg hpos]
        · have hdiff : ((if a then -q else q) - n : ℚ) =
              if a then -(q - n.natAbs) else q - n.natAbs := by
            rw [← hsigned, natAbs_signed]
            cases a with
            | false => rfl
            | true => simp [signed, neg_add_eq_sub]
          rw [hdiff, abs_ite_neg, abs_le]
          have hle' := hhigh hle
          constructor <;> nlinarith

end Fraction

namespace Value

open Fraction

variable {f : Fraction} {n k : ℤ}

/-- Cutting off what is behind the point adds less than one to the error. -/
theorem abs_truncate_sub_lt {q : ℚ} (h : |q - k| ≤ k.natAbs * (4 * unitRoundoff)) :
    2 ^ 51 * |Extended.truncate q - k| < 2 ^ 51 + |k| := by
  have hcut := Extended.abs_sub_truncate_lt q
  have hdiff : |(Extended.truncate q : ℚ) - k| ≤ |q - Extended.truncate q| + |q - k| := by
    rw [abs_sub_comm q (Extended.truncate q)]
    exact abs_sub_le _ q _
  have habs : |(k : ℚ)| = k.natAbs := by
    rw [← Int.cast_abs, Int.abs_eq_natAbs, Int.cast_natCast]
  have hlt : (2 : ℚ) ^ 51 * |(Extended.truncate q : ℚ) - k| < 2 ^ 51 + |(k : ℚ)| := by
    rw [unitRoundoff] at h
    rw [habs]
    linarith
  exact_mod_cast hlt

/-- The integer that is found is off by less than `1 + |k| / 2 ^ 51` from the value `k`. -/
theorem abs_toWhole?_sub_lt (hf : f.WellFormed) (hv : f.value = .finite k)
    (h : (fraction f).toWhole? = some n) : 2 ^ 51 * |n - k| < 2 ^ 51 + |k| := by
  obtain ⟨-, q, hq, rfl, hlt⟩ := toWhole?_eq_some_iff.1 h
  obtain ⟨-, ⟨⟨a, hinf⟩, -⟩ | ⟨r, hr, hlow, herror⟩⟩ := value_toDouble_of_whole hf hv
  · rw [hq] at hinf
    cases hinf
  · rw [hq, Extended.finite.injEq] at hr
    subst hr
    have hk64 : (k.natAbs : ℚ) ≤ 2 ^ 64 := by
      have hn : |(Extended.truncate q : ℚ)| ≤ 2 ^ 63 := by
        rw [← Int.cast_abs, Int.abs_eq_natAbs]
        exact_mod_cast hlt.le
      have htriangle := abs_add_le (q - Extended.truncate q) (Extended.truncate q)
      rw [sub_add_cancel] at htriangle
      have hcut := Extended.abs_sub_truncate_lt q
      have hk0 : (0 : ℚ) ≤ k.natAbs := Nat.cast_nonneg _
      rw [unitRoundoff] at hlow
      linarith
    exact abs_truncate_sub_lt (herror (by exact_mod_cast hk64))

theorem exists_toWhole?_eq_some (hf : f.WellFormed) (hv : f.value = .finite k)
    (hk : |k| ≤ 2 ^ 53) : ∃ n, (fraction f).toWhole? = some n := by
  obtain ⟨hwhole, ⟨-, hlarge⟩ | ⟨q, hq, -, herror⟩⟩ := value_toDouble_of_whole hf hv
  · rw [Int.abs_eq_natAbs] at hk
    omega
  · refine ⟨_, toWhole?_eq_some_iff.2 ⟨hwhole, q, hq, rfl, ?_⟩⟩
    have hk64 : k.natAbs ≤ 2 ^ 64 := by
      rw [Int.abs_eq_natAbs] at hk
      omega
    have hlt := abs_truncate_sub_lt (herror hk64)
    have htriangle := abs_sub_abs_le_abs_sub (Extended.truncate q) k
    rw [Int.abs_eq_natAbs (Extended.truncate q)] at htriangle
    have hbound : wordBound = 2 ^ 63 := rfl
    omega

/-- Terms of at most `2 ^ 53` give the integer exactly. -/
theorem toWhole?_of_le {a : Bool} {m d : ℕ} (hf : (finite a m d).WellFormed)
    (hv : (finite a m d).value = .finite k) (hm : m ≤ 2 ^ 53) (hd : d ≤ 2 ^ 53) :
    (fraction (finite a m d)).toWhole? = some k := by
  rw [value_finite, Extended.finite.injEq] at hv
  obtain ⟨hterms, hsigned⟩ := terms_of_whole hf hv
  have hk : k.natAbs ≤ 2 ^ 53 := by
    rw [hterms] at hm
    exact (Nat.le_mul_of_pos_right _ (Nat.pos_of_ne_zero hf.1)).trans hm
  have hdouble : Floating.value (finite a m d).toDouble = .finite (k : ℚ) := by
    rw [Fraction.toDouble, hterms, value_ratioToDouble_of_le a hf.1 (hterms ▸ hm) hd, hsigned]
  have hbound : k.natAbs < wordBound := hk.trans_lt (by decide)
  exact toWhole?_eq_some_iff.2 ⟨(isWhole_iff hf).2 ⟨k, hv⟩, k, hdouble, Extended.truncate_intCast k,
    hbound⟩

theorem toWhole?_natCast {n : ℕ} (hn : n ≤ 2 ^ 53) :
    (fraction (finite false n 1)).toWhole? = some (n : ℤ) := by
  have hv : (finite false n 1).value = .finite (n : ℤ) := by
    rw [value_finite, Nat.cast_one, div_one]
    rfl
  exact toWhole?_of_le ⟨one_ne_zero, fun _ => rfl⟩ hv hn (by decide)

/-- In lowest terms integers of at most `2 ^ 53` are found exactly. -/
theorem toWhole?_simplified (hf : f.WellFormed) (hv : f.value = .finite k) (hk : |k| ≤ 2 ^ 53) :
    (fraction f.simplified).toWhole? = some k := by
  have hwf := wellFormed_simplified hf
  have hvalue := (value_simplified hf).trans hv
  obtain ⟨hrat, hterms⟩ := isRational_of_value hf hv
  have hsimp := simplified_eq hrat
  rw [hterms, Rat.num_intCast, Rat.den_intCast] at hsimp
  rw [hsimp] at hwf hvalue ⊢
  rw [Int.abs_eq_natAbs] at hk
  exact toWhole?_of_le hwf hvalue (by exact_mod_cast hk) (by decide)

/-- What is read as an integer has an integer value, and this one is met up to less than
`1 + |k| / 2 ^ 51`. Every integer of at most `2 ^ 53` is read as some integer, and as itself if the
terms are the lowest ones or do not exceed `2 ^ 53` either. -/
theorem whole_of_fraction (hf : f.WellFormed) :
    (∀ n, (fraction f).toWhole? = some n →
        ∃ k : ℤ, f.value = .finite k ∧ 2 ^ 51 * |n - k| < 2 ^ 51 + |k|) ∧
      (∀ k : ℤ, f.value = .finite k → |k| ≤ 2 ^ 53 →
        (∃ n, (fraction f).toWhole? = some n) ∧ (fraction f.simplified).toWhole? = some k) ∧
      ∀ a m d, f = .finite a m d → m ≤ 2 ^ 53 → d ≤ 2 ^ 53 →
        ∀ k : ℤ, f.value = .finite k → (fraction f).toWhole? = some k := by
  refine ⟨fun n h => ?_, fun k hv hk => ?_, ?_⟩
  · obtain ⟨hwhole, -⟩ := toWhole?_eq_some_iff.1 h
    obtain ⟨k, hv⟩ : ∃ k : ℤ, f.value = .finite k := by
      cases f with
      | infinite a => cases hwhole
      | nan => cases hwhole
      | finite a m d =>
        obtain ⟨k, hk⟩ := (isWhole_iff hf).1 hwhole
        exact ⟨k, congrArg Extended.finite hk⟩
    exact ⟨k, hv, abs_toWhole?_sub_lt hf hv h⟩
  · exact ⟨exists_toWhole?_eq_some hf hv hk, toWhole?_simplified hf hv hk⟩
  · rintro a m d rfl hm hd k hv
    exact toWhole?_of_le hf hv hm hd

/-- The fraction `-12/4` is read as `-3`. -/
theorem whole_of_unreduced_terms :
    (finite true 12 4).value = .finite (-3 : ℤ) ∧
      (fraction (finite true 12 4)).toWhole? = some (-3) ∧
      (fraction (finite true 12 4).simplified).toWhole? = some (-3) := by
  have hv : (finite true 12 4).value = .finite (-3 : ℤ) := by
    rw [value_finite]
    norm_num [signed]
  obtain ⟨-, hsimp, hterms⟩ := whole_of_fraction (f := finite true 12 4) (by decide)
  exact ⟨hv, hterms true 12 4 rfl (by decide) (by decide) (-3) hv, (hsimp (-3) hv (by decide)).2⟩

/-- The terms of this fraction have 55 and 54 bits. Its value is three, but it is read as two. -/
theorem whole_of_rounded_terms :
    (finite false 27021597764222985 9007199254740995).WellFormed ∧
      (finite false 27021597764222985 9007199254740995).value = .finite (3 : ℤ) ∧
      (fraction (finite false 27021597764222985 9007199254740995)).toWhole? = some 2 := by
  refine ⟨by decide, ?_, by decide +kernel⟩
  rw [value_finite]
  norm_num [signed]

end Value

end Formula
