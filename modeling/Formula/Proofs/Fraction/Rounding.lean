import Formula.Proofs.Binary.Floating
import Formula.Proofs.Fraction.Rational
import Formula.Fraction.Rounding

/-!
# From 64-bit numbers to fractions and back

`ofDouble` gives the lowest terms of the value of a 64-bit number (`ofDouble_eq`), and so decodes every
pattern of 64 bits exactly (`ofDouble_ofBits`), but `toDouble` does not always lead back from them. If
one of the terms has more than 1000 bits they are shifted down together. Then an integer loses its
denominator and becomes infinite, and a number close to zero keeps only 999 bits behind the point
(`value_toDouble_ofDouble`, `toDouble_ofDouble_beq_iff`).
-/

namespace Formula.Fraction

variable {x : Float} {q : ℚ} {a : Bool} {m n k i : ℕ}

/-! ## From 64-bit numbers -/

theorem exists_decode_of_value (h : Floating.value x = .finite q) :
    ∃ a m e, Floating.decode x = .finite a m e ∧ q = signed a m * 2 ^ e := by
  rw [Floating.value] at h
  cases hx : Floating.decode x with
  | nan =>
    rw [hx] at h
    cases h
  | infinite a =>
    rw [hx] at h
    cases h
  | finite a m e =>
    rw [hx] at h
    cases h
    exact ⟨a, m, e, rfl, rfl⟩

/-- A finite 64-bit number is first made a quotient whose denominator is a power of two. -/
theorem exists_ofDouble_eq_simplified {e : ℤ} (h : Floating.decode x = .finite a m e) :
    ∃ f : Fraction, f.IsRational ∧ f.toRat = signed a m * 2 ^ e ∧ ofDouble x = f.simplified := by
  have hvalue : (ofParts a (m * Nat.pow 2 e.toNat) (Nat.pow 2 (-e).toNat)).value =
      .finite (signed a m * 2 ^ e) := by
    have hden : Nat.pow 2 (-e).toNat ≠ 0 := (Nat.two_pow_pos _).ne'
    rw [value_ofParts _ _ hden, signed_mul_natCast, two_zpow_eq, Nat.pow_eq, Nat.pow_eq]
    push_cast
    rw [mul_div_assoc]
  obtain ⟨hrat, hq⟩ := isRational_of_value (wellFormed_ofParts _ _ _) hvalue
  exact ⟨_, hrat, hq, by simp only [ofDouble, h]⟩

/-- The fraction made of a finite 64-bit number has the lowest terms of its value. -/
theorem ofDouble_eq (h : Floating.value x = .finite q) :
    ofDouble x = finite (decide (q < 0)) q.num.natAbs q.den := by
  obtain ⟨a, m, e, hx, rfl⟩ := exists_decode_of_value h
  obtain ⟨f, hf, hvalue, hsimp⟩ := exists_ofDouble_eq_simplified hx
  simp only [hsimp, simplified_eq hf, hvalue, Rat.num_neg]

theorem ofDouble_of_decode {e : ℤ} (h : Floating.decode x = .finite a m e) :
    (ofDouble x).InLowestTerms ∧ (ofDouble x).value = .finite (signed a m * 2 ^ e) := by
  obtain ⟨f, hf, hvalue, hsimp⟩ := exists_ofDouble_eq_simplified h
  rw [hsimp, value_simplified hf.1, hf.value_eq, hvalue]
  exact ⟨inLowestTerms_simplified hf, rfl⟩

section Patterns

open Floating

/-- Every pattern of 64 bits is decoded exactly. With the greatest exponent it is an infinity or NaN. With
any other one it is a fraction in lowest terms, and its value is that of the significand in units of the
last place, where only the least exponent does without the leading bit; both zeros are the same
fraction. -/
theorem ofDouble_ofBits (b : UInt64) :
    (exponentField b = 2047 →
      ofDouble (Float.ofBits b) = if fractionField b = 0 then infinite (signBit b) else nan) ∧
    (exponentField b ≠ 2047 →
      (ofDouble (Float.ofBits b)).InLowestTerms ∧
      (ofDouble (Float.ofBits b)).value = .finite (
        if exponentField b = 0 then signed (signBit b) (fractionField b) * 2 ^ (-1074 : ℤ)
        else signed (signBit b) (2 ^ 52 + fractionField b) * 2 ^ ((exponentField b : ℤ) - 1075))) ∧
    (exponentField b = 0 → fractionField b = 0 → ofDouble (Float.ofBits b) = zero) := by
  have hdecode := decode_ofBits_eq b
  refine ⟨fun hspecial => ?_, fun hfinite => ?_, fun hzero hfraction => ?_⟩
  · rw [if_pos hspecial] at hdecode
    simp only [ofDouble, hdecode]
    split_ifs <;> rfl
  · rw [if_neg hfinite] at hdecode
    split_ifs at hdecode ⊢ with hzero
    · exact ofDouble_of_decode hdecode
    · exact ofDouble_of_decode hdecode
  · rw [if_neg (by omega), if_pos hzero, hfraction] at hdecode
    have hvalue : Floating.value (Float.ofBits b) = .finite 0 := by
      rw [Floating.value, hdecode, Binary.value, signed_zero, Int.cast_zero, zero_mul]
    exact ofDouble_eq hvalue

/-- The negative number closest to zero, and the negative zero. -/
theorem ofDouble_ofBits_of_subnormal_and_zero :
    (ofDouble (Float.ofBits 0x8000000000000001)).InLowestTerms ∧
      (ofDouble (Float.ofBits 0x8000000000000001)).value =
        .finite (signed true 1 * 2 ^ (-1074 : ℤ)) ∧
      ofDouble (Float.ofBits 0x8000000000000000) = zero := by
  obtain ⟨-, hleast, -⟩ := ofDouble_ofBits 0x8000000000000001
  obtain ⟨-, -, hzero⟩ := ofDouble_ofBits 0x8000000000000000
  have hsign : signBit 0x8000000000000001 = true := by decide
  have hfraction : fractionField 0x8000000000000001 = 1 := by decide
  obtain ⟨hlowest, hvalue⟩ := hleast (by decide)
  rw [if_pos (by decide), hsign, hfraction] at hvalue
  exact ⟨hlowest, hvalue, hzero (by decide) (by decide)⟩

end Patterns

/-- In lowest terms a 64-bit number is an integer, or has a numerator of at most 53 bits. -/
theorem terms_cases (h : Floating.value x = .finite q) :
    (q.den = 1 ∧ ∃ m i, q.num.natAbs = m * 2 ^ i ∧ m < 2 ^ 53) ∨
      q.num.natAbs < 2 ^ 53 ∧ ∃ k, q.den = 2 ^ k := by
  obtain ⟨a, m, e, hx, rfl⟩ := exists_decode_of_value h
  obtain ⟨hc, -⟩ := Floating.canonical_of_decode hx
  have hm : m < 2 ^ 53 := hc.significand_lt
  obtain ⟨i, rfl | rfl⟩ := e.eq_nat_or_neg
  · have hq : (signed a m * 2 ^ (i : ℤ) : ℚ) = ((signed a m * 2 ^ i : ℤ) : ℚ) := by push_cast; rfl
    rw [hq, Rat.den_intCast, Rat.num_intCast, Int.natAbs_mul, natAbs_signed, Int.natAbs_pow]
    exact .inl ⟨rfl, m, i, rfl, hm⟩
  · have hq : (signed a m * 2 ^ (-i : ℤ) : ℚ) = Rat.divInt (signed a m) (2 ^ i : ℤ) := by
      rw [zpow_neg, zpow_natCast, Rat.divInt_eq_div, div_eq_mul_inv]
      push_cast
      rfl
    have hpos : (2 : ℤ) ^ i ≠ 0 := by positivity
    have hnum : (signed a m * 2 ^ (-i : ℤ) : ℚ).num.natAbs ∣ m := by
      have hdvd := Int.natAbs_dvd_natAbs.2 (Rat.num_dvd (signed a m) hpos)
      rwa [← hq, natAbs_signed] at hdvd
    have hden : (signed a m * 2 ^ (-i : ℤ) : ℚ).den ∣ 2 ^ i := by
      rw [hq]
      exact_mod_cast Rat.den_dvd (signed a m) (2 ^ i)
    obtain ⟨k, -, hk⟩ := (Nat.dvd_prime_pow Nat.prime_two).1 hden
    refine .inr ⟨?_, k, hk⟩
    obtain rfl | hzero := m.eq_zero_or_pos
    · simp [signed_zero]
    · exact (Nat.le_of_dvd hzero hnum).trans_lt hm

/-! ## To 64-bit numbers -/

theorem bitLength_le_iff {b : ℕ} : bitLength n ≤ b ↔ n < 2 ^ b := by
  unfold bitLength
  split_ifs with hn
  · rw [hn]
    exact iff_of_true b.zero_le (Nat.two_pow_pos b)
  · rw [Nat.succ_le_iff, Nat.log2_lt hn]

section Shift

variable {num den s : ℕ}

theorem ratioToDouble_eq (a : Bool) (hs : max (bitLength num) (bitLength den) - bitLimit = s)
    (hden : BinaryFormat.double.roundNat (den / 2 ^ s) ≠ 0) :
    ratioToDouble a num den = Floating.ofRatio a (BinaryFormat.double.roundNat (num / 2 ^ s))
      (BinaryFormat.double.roundNat (den / 2 ^ s)) := by
  simp only [ratioToDouble, hs, Nat.pow_eq, if_neg hden]

/-- A denominator that vanishes in the shift makes the number infinite. -/
theorem value_ratioToDouble_of_lost (a : Bool)
    (hs : max (bitLength num) (bitLength den) - bitLimit = s) (hden : den / 2 ^ s = 0) :
    Floating.value (ratioToDouble a num den) = .infinite a := by
  have hround : BinaryFormat.double.roundNat 0 = 0 := by decide
  simp only [ratioToDouble, hs, Nat.pow_eq, hden, hround, if_true]
  exact Floating.value_infinity a

end Shift

/-- Terms that fit in the bits of 64-bit numbers after the shift are not rounded. -/
theorem value_ratioToDouble {num den s j : ℕ} (a : Bool)
    (hs : max (bitLength num) (bitLength den) - bitLimit = s) (hnum : num / 2 ^ s = m * 2 ^ i)
    (hm : m < 2 ^ 53) (hden : den / 2 ^ s = 2 ^ j) (hj : j ≤ 1074) (hlt : m * 2 ^ i < 2 ^ 1024) :
    Floating.value (ratioToDouble a num den) = .finite (signed a (m * 2 ^ i) / 2 ^ j) := by
  have hj0 : 2 ^ j ≠ 0 := (Nat.two_pow_pos j).ne'
  have hround : BinaryFormat.double.roundNat (m * 2 ^ i) = m * 2 ^ i := BinaryFormat.roundNat_eq hm
  have hround' : BinaryFormat.double.roundNat (2 ^ j) = 2 ^ j := by
    have h := BinaryFormat.roundNat_eq (f := .double) (m := 1) (p := j) (by decide)
    rwa [one_mul] at h
  have hquot : ((m * 2 ^ i : ℕ) : ℚ) / (2 ^ j : ℕ) = m * 2 ^ ((i : ℤ) - j) := by
    rw [zpow_sub₀ two_ne_zero, zpow_natCast, zpow_natCast]
    push_cast
    rw [mul_div_assoc]
  have hlt' : ((m * 2 ^ i : ℕ) : ℚ) / (2 ^ j : ℕ) < 2 ^ 1024 := by
    refine (div_le_self (Nat.cast_nonneg _) ?_).trans_lt (by exact_mod_cast hlt)
    exact_mod_cast Nat.one_le_two_pow
  rw [ratioToDouble_eq a hs (by rwa [hden, hround']), hnum, hden, hround, hround',
    Floating.value_ofRatio a hj0 hquot hm (by omega) hlt']
  push_cast
  rfl

/-- An integer of at most 1000 bits is not shifted. -/
theorem value_ratioToDouble_whole (a : Bool) (hm : m < 2 ^ 53) (hlt : m * 2 ^ i < 2 ^ 1000) :
    Floating.value (ratioToDouble a (m * 2 ^ i) 1) = .finite (signed a (m * 2 ^ i)) := by
  have hlength : bitLength (m * 2 ^ i) ≤ 1000 := bitLength_le_iff.2 hlt
  have hs : max (bitLength (m * 2 ^ i)) (bitLength 1) - bitLimit = 0 :=
    Nat.sub_eq_zero_of_le (max_le hlength (by decide))
  have h := value_ratioToDouble (j := 0) a hs (by rw [pow_zero, Nat.div_one]) hm
    (by rw [pow_zero, Nat.div_one]) (Nat.zero_le _)
    (hlt.trans (pow_lt_pow_right₀ one_lt_two (by decide)))
  rwa [pow_zero, div_one] at h

/-- The denominator of a greater integer vanishes in the shift. -/
theorem value_ratioToDouble_huge (a : Bool) (h : 2 ^ 1000 ≤ n) :
    Floating.value (ratioToDouble a n 1) = .infinite a := by
  have hlength : ¬ bitLength n ≤ bitLimit := fun hle => h.not_gt (bitLength_le_iff.1 hle)
  have hs : 0 < max (bitLength n) (bitLength 1) - bitLimit := by omega
  exact value_ratioToDouble_of_lost a rfl (Nat.div_eq_of_lt (Nat.one_lt_two_pow hs.ne'))

/-- A denominator of more than 1000 bits is shifted to 1000 bits, and the numerator along with it. -/
theorem value_ratioToDouble_dyadic (a : Bool) (h : n < 2 ^ 53) (k : ℕ) :
    Floating.value (ratioToDouble a n (2 ^ k)) =
      .finite (signed a (n * 2 ^ 999 / 2 ^ k) / 2 ^ 999) := by
  have hlength : bitLength n ≤ 53 := bitLength_le_iff.2 h
  have hlength' : bitLength (2 ^ k) = k + 1 := by
    rw [bitLength, if_neg (Nat.two_pow_pos k).ne', Nat.log2_two_pow]
  have hs : max (bitLength n) (bitLength (2 ^ k)) - bitLimit = k - 999 := by
    rw [hlength', bitLimit]
    omega
  have hden : 2 ^ k / 2 ^ (k - 999) = 2 ^ (k - (k - 999)) := Nat.pow_div (by omega) two_pos
  have hle : n / 2 ^ (k - 999) < 2 ^ 53 := (Nat.div_le_self _ _).trans_lt h
  have hlt : n / 2 ^ (k - 999) * 2 ^ 0 < 2 ^ 1024 := by
    rw [pow_zero, mul_one]
    exact hle.trans (pow_lt_pow_right₀ one_lt_two (by decide))
  rw [value_ratioToDouble a hs (mul_one _).symm hle hden (by omega) hlt, Extended.finite.injEq,
    pow_zero, mul_one]
  obtain hk | hk := le_total k 999
  · obtain ⟨t, ht⟩ := Nat.exists_eq_add_of_le hk
    have hquot : n * 2 ^ 999 / 2 ^ k = n * 2 ^ t := by
      rw [ht, pow_add, mul_left_comm, Nat.mul_div_cancel_left _ (Nat.two_pow_pos k)]
    rw [Nat.sub_eq_zero_of_le hk, Nat.sub_zero, pow_zero, Nat.div_one, hquot, signed_mul_natCast, ht,
      pow_add]
    push_cast
    rw [mul_div_mul_right _ _ (by positivity)]
  · obtain ⟨t, rfl⟩ := Nat.exists_eq_add_of_le hk
    have hquot : n * 2 ^ 999 / 2 ^ (999 + t) = n / 2 ^ t := by
      rw [pow_add, mul_comm (2 ^ 999), Nat.mul_div_mul_right _ _ (Nat.two_pow_pos 999)]
    rw [hquot, Nat.add_sub_cancel_left, Nat.add_sub_cancel]

/-! ## There and back -/

/-- Of the magnitude of a 64-bit number, what is beyond the 999th bit behind the point is cut off in its
fraction, and a number of at least `2 ^ 1000` becomes infinite. -/
theorem value_toDouble_ofDouble (h : Floating.value x = .finite q) :
    Floating.value (ofDouble x).toDouble =
      if 2 ^ 1000 ≤ |q| then .infinite (decide (q < 0))
      else .finite (Extended.truncate (q * 2 ^ 999) / 2 ^ 999) := by
  have hcut := truncate_mul_natCast q (pow_ne_zero 999 two_ne_zero)
  rw [Nat.cast_pow, Nat.cast_ofNat] at hcut
  have habs := natAbs_num_div_den q
  rw [ofDouble_eq h, toDouble]
  obtain ⟨hden, m, i, hnum, hm⟩ | ⟨hnum, k, hk⟩ := terms_cases h
  · rw [hden, Nat.cast_one, div_one] at habs
    rw [hden, Nat.div_one, signed_mul_natCast] at hcut
    have hlarge : 2 ^ 1000 ≤ |q| ↔ 2 ^ 1000 ≤ q.num.natAbs := by
      rw [← habs]
      exact_mod_cast Iff.rfl
    rw [hden]
    split_ifs with hq
    · exact value_ratioToDouble_huge _ (hlarge.1 hq)
    · rw [hnum] at hlarge ⊢
      rw [value_ratioToDouble_whole _ hm (lt_of_not_ge (hlarge.not.1 hq)), hcut, hnum,
        Int.cast_mul, Int.cast_natCast, Nat.cast_pow, Nat.cast_ofNat,
        mul_div_cancel_right₀ _ (by positivity)]
  · have hsmall : |q| < 2 ^ 1000 := by
      have hlt : (q.num.natAbs : ℚ) < 2 ^ 53 := by exact_mod_cast hnum
      have hone : (1 : ℚ) ≤ q.den := by exact_mod_cast q.den_pos
      rw [← habs]
      exact ((div_le_self (Nat.cast_nonneg _) hone).trans_lt hlt).trans
        (pow_lt_pow_right₀ one_lt_two (by decide))
    rw [if_neg hsmall.not_ge, hcut, hk, value_ratioToDouble_dyadic _ hnum]

/-- A 64-bit number is got back from its fraction if and only if its magnitude is less than `2 ^ 1000`
and it has no bits beyond the 999th one behind the point. All other ones come back as an infinity, or
with the further bits cut off. -/
theorem toDouble_ofDouble_beq_iff (h : Floating.value x = .finite q) :
    ((ofDouble x).toDouble == x) = true ↔ |q| < 2 ^ 1000 ∧ ∃ k : ℤ, q * 2 ^ 999 = k := by
  rw [Floating.beq_iff_value, value_toDouble_ofDouble h, h]
  by_cases hlarge : 2 ^ 1000 ≤ |q|
  · rw [if_pos hlarge]
    exact iff_of_false (fun heq => nomatch heq.1) fun hlt => hlarge.not_gt hlt.1
  · have hpos : (0 : ℚ) < 2 ^ 999 := by positivity
    rw [if_neg hlarge, Extended.finite.injEq, div_eq_iff hpos.ne']
    constructor
    · rintro ⟨heq, -⟩
      exact ⟨lt_of_not_ge hlarge, _, heq.symm⟩
    · rintro ⟨-, k, hk⟩
      rw [hk, Extended.truncate_intCast]
      exact ⟨rfl, nofun⟩

/-- The number `-(2 ^ 53 - 1) / 2 ^ 999`, whose fraction has a denominator of 1000 bits. -/
theorem toDouble_ofDouble_of_unshifted :
    let x : Float := Floating.ofWord (2 ^ 63 + 75 * 2 ^ 52 + (2 ^ 53 - 1))
    Floating.value x = .finite (signed true (2 ^ 53 - 1) * 2 ^ (-999 : ℤ)) ∧
      ((ofDouble x).toDouble == x) = true := by
  intro x
  have hdecode : Floating.decode x = .finite true (2 ^ 53 - 1) (-999) := by decide +kernel
  have hvalue : Floating.value x = .finite (signed true (2 ^ 53 - 1) * 2 ^ (-999 : ℤ)) :=
    congrArg Binary.value hdecode
  refine ⟨hvalue, (toDouble_ofDouble_beq_iff hvalue).2 ⟨?_, signed true (2 ^ 53 - 1), ?_⟩⟩
  · have hone : (2 : ℚ) ^ (-999 : ℤ) ≤ 1 := zpow_le_one_of_nonpos₀ one_le_two (by decide)
    rw [abs_mul, abs_signed, abs_of_pos (two_zpow_pos _)]
    refine (mul_le_of_le_one_right (Nat.cast_nonneg _) hone).trans_lt ?_
    exact lt_of_lt_of_le (by norm_num) (pow_le_pow_right₀ one_le_two (by decide : 53 ≤ 1000))
  · rw [zpow_neg, mul_assoc]
    exact mul_right_eq_self₀.2 (.inl (inv_mul_cancel₀ (by positivity)))

/-- The greatest 64-bit number comes back as an infinity, and the least positive one as zero. -/
theorem toDouble_ofDouble_of_greatest_and_least :
    let greatest : Float := Floating.extreme false
    let least : Float := Floating.ofWord 1
    Floating.decode greatest = .finite false (2 ^ 53 - 1) 971 ∧
      (ofDouble greatest).toDouble = Floating.infinity false ∧
      ((ofDouble greatest).toDouble == greatest) = false ∧
      Floating.decode least = .finite false 1 (-1074) ∧
      (ofDouble least).toDouble = 0 ∧ ((ofDouble least).toDouble == least) = false := by
  decide +kernel

end Formula.Fraction
