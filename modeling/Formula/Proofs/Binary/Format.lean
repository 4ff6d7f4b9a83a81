import Formula.Binary.Format
import Formula.Proofs.Fraction.Value

/-!
# Words of binary formats

Every finite word of a format holds a significand and an exponent in `Canonical` form, and every pair in
this form is held by one word for each sign (`decode_withSign`, `decode_eq_finite`). The pair is
determined by the number the word stands for (`Canonical.eq_of_value_eq`). A quotient of naturals that
is such a number is rounded to itself (`roundMagnitude_eq`).
-/

namespace Formula

/-! ## Powers of two and quotients -/

theorem two_zpow_eq (e : ℤ) : (2 : ℚ) ^ e = 2 ^ e.toNat / 2 ^ (-e).toNat := by
  rw [div_eq_mul_inv, ← zpow_natCast, ← zpow_natCast, ← zpow_neg, ← zpow_add₀ two_ne_zero]
  congr 1
  omega

theorem two_zpow_pos (e : ℤ) : (0 : ℚ) < 2 ^ e :=
  zpow_pos two_pos e

theorem two_zpow_le_mul {n b : ℕ} (h : 2 ^ b ≤ n) (e : ℤ) : (2 : ℚ) ^ (b + e) ≤ n * 2 ^ e := by
  rw [zpow_add₀ two_ne_zero, zpow_natCast]
  exact mul_le_mul_of_nonneg_right (by exact_mod_cast h) (two_zpow_pos e).le

theorem mul_lt_two_zpow {n b : ℕ} (h : n < 2 ^ b) (e : ℤ) : (n : ℚ) * 2 ^ e < 2 ^ (b + e) := by
  rw [zpow_add₀ two_ne_zero, zpow_natCast]
  exact mul_lt_mul_of_pos_right (by exact_mod_cast h) (two_zpow_pos e)

theorem roundHalfEven_mul (n : ℕ) {d : ℕ} (hd : 0 < d) : roundHalfEven (n * d) d = n := by
  simp only [roundHalfEven, Nat.mul_mod_left, Nat.mul_div_cancel n hd]
  rw [if_pos hd]

/-- A quotient of positive numbers lies between two powers of two. -/
theorem ratioLog2_bounds {num den : ℕ} (hnum : num ≠ 0) (hden : den ≠ 0) :
    (2 : ℚ) ^ ratioLog2 num den ≤ num / den ∧ (num : ℚ) / den < 2 ^ (ratioLog2 num den + 1) := by
  have hpos : (0 : ℚ) < den := by exact_mod_cast Nat.pos_of_ne_zero hden
  have hnum₁ : (2 : ℚ) ^ num.log2 ≤ num := by exact_mod_cast Nat.log2_self_le hnum
  have hnum₂ : (num : ℚ) < 2 ^ (num.log2 + 1) := by exact_mod_cast Nat.lt_log2_self
  have hden₁ : (2 : ℚ) ^ den.log2 ≤ den := by exact_mod_cast Nat.log2_self_le hden
  have hden₂ : (den : ℚ) < 2 ^ (den.log2 + 1) := by exact_mod_cast Nat.lt_log2_self
  have hlow : (2 : ℚ) ^ ((num.log2 : ℤ) - den.log2 - 1) ≤ num / den :=
    calc (2 : ℚ) ^ ((num.log2 : ℤ) - den.log2 - 1) = 2 ^ num.log2 / 2 ^ (den.log2 + 1) := by
          rw [sub_sub, zpow_sub₀ two_ne_zero]
          norm_cast
      _ ≤ num / den := div_le_div₀ num.cast_nonneg hnum₁ hpos hden₂.le
  have hhigh : (num : ℚ) / den < 2 ^ ((num.log2 : ℤ) - den.log2 + 1) :=
    calc (num : ℚ) / den < 2 ^ (num.log2 + 1) / 2 ^ den.log2 :=
          div_lt_div₀ hnum₂ hden₁ (by positivity) (by positivity)
      _ = 2 ^ ((num.log2 : ℤ) - den.log2 + 1) := by
          rw [sub_add_eq_add_sub, zpow_sub₀ two_ne_zero]
          norm_cast
  have htest (e : ℤ) :
      den * Nat.pow 2 e.toNat ≤ num * Nat.pow 2 (-e).toNat ↔ (2 : ℚ) ^ e ≤ num / den := by
    rw [two_zpow_eq, div_le_div_iff₀ (by positivity) hpos, mul_comm]
    exact_mod_cast Iff.rfl
  simp only [ratioLog2]
  split_ifs with h
  · exact ⟨(htest _).1 h, hhigh⟩
  · rw [sub_add_cancel]
    exact ⟨hlow, lt_of_not_ge fun hle => h ((htest _).2 hle)⟩

/-- A whole number of units is not changed by rounding to units. -/
theorem roundScaled_eq {num den n : ℕ} {e : ℤ} (hden : den ≠ 0) (h : (num : ℚ) / den = n * 2 ^ e) :
    roundScaled num den e = n := by
  have hpos : (0 : ℚ) < den := by exact_mod_cast Nat.pos_of_ne_zero hden
  have heq : num * Nat.pow 2 (-e).toNat = n * (den * Nat.pow 2 e.toNat) := by
    rw [two_zpow_eq, ← mul_div_assoc, div_eq_div_iff hpos.ne' (by positivity), mul_right_comm,
      mul_assoc] at h
    exact_mod_cast h
  rw [roundScaled, heq]
  exact roundHalfEven_mul n (Nat.mul_pos (Nat.pos_of_ne_zero hden) (Nat.two_pow_pos _))

/-! ## Numbers -/

/-- The number a decoded word stands for. -/
def Binary.value : Binary → Extended
  | nan => .nan
  | infinite negative => .infinite negative
  | finite negative significand exponent =>
    .finite (Fraction.signed negative significand * 2 ^ exponent)

theorem Binary.value_eq_cases {x y : Binary} (h : x.value = y.value) :
    (x = .nan ∧ y = .nan) ∨ (∃ a, x = .infinite a ∧ y = .infinite a) ∨
      ∃ a m e b n k, x = .finite a m e ∧ y = .finite b n k ∧
        (Fraction.signed a m : ℚ) * 2 ^ e = Fraction.signed b n * 2 ^ k := by
  cases x <;> cases y <;> simp_all [value]

namespace BinaryFormat

variable {f : BinaryFormat} {a b : Bool} {m n num den w : ℕ} {e k : ℤ}

/-- The form in which words hold a significand and an exponent: the significand has all its bits, except
at the least exponent. -/
structure Canonical (f : BinaryFormat) (m : ℕ) (e : ℤ) : Prop where
  significand_lt : m < 2 ^ (f.fractionBits + 1)
  minExponent_le : f.minExponent ≤ e
  eq_or_le : e = f.minExponent ∨ 2 ^ f.fractionBits ≤ m
  exponent_lt : e + 1 < f.minExponent + f.specialExponent

/-- The word that holds a significand and an exponent. -/
def magnitudeWord (f : BinaryFormat) (m : ℕ) (e : ℤ) : ℕ :=
  (e - f.minExponent).toNat * 2 ^ f.fractionBits + m

theorem Canonical.value_lt (h : f.Canonical m e) (h' : f.Canonical n k) (hlt : e < k) :
    (m : ℚ) * 2 ^ e < n * 2 ^ k := by
  have hmin := h.minExponent_le
  have hbits : 2 ^ f.fractionBits ≤ n := h'.eq_or_le.resolve_left (by omega)
  calc (m : ℚ) * 2 ^ e < 2 ^ ((f.fractionBits + 1 : ℕ) + e) := mul_lt_two_zpow h.significand_lt e
    _ ≤ 2 ^ (f.fractionBits + k) := zpow_le_zpow_right₀ one_le_two (by omega)
    _ ≤ n * 2 ^ k := two_zpow_le_mul hbits k

/-- A number has one canonical form. -/
theorem Canonical.eq_of_value_eq (h : f.Canonical m e) (h' : f.Canonical n k)
    (heq : (m : ℚ) * 2 ^ e = n * 2 ^ k) : m = n ∧ e = k := by
  obtain hlt | rfl | hlt := lt_trichotomy e k
  · exact absurd heq (h.value_lt h' hlt).ne
  · exact ⟨by exact_mod_cast mul_right_cancel₀ (two_zpow_pos e).ne' heq, rfl⟩
  · exact absurd heq (h'.value_lt h hlt).ne'

/-- Numbers of one value have one canonical form, up to the sign of zero. -/
theorem Canonical.eq_of_signed_eq (h : f.Canonical m e) (h' : f.Canonical n k)
    (heq : (Fraction.signed a m : ℚ) * 2 ^ e = Fraction.signed b n * 2 ^ k) :
    m = n ∧ e = k ∧ (a = b ∨ m = 0) := by
  have habs := congrArg (|·|) heq
  simp only [abs_mul, Fraction.abs_signed, abs_of_pos (two_zpow_pos _)] at habs
  obtain ⟨rfl, rfl⟩ := h.eq_of_value_eq h' habs
  refine ⟨rfl, rfl, ?_⟩
  have hsigned : Fraction.signed a m = Fraction.signed b m := by
    exact_mod_cast mul_right_cancel₀ (two_zpow_pos e).ne' heq
  cases a <;> cases b <;> simp [Fraction.signed] at hsigned ⊢ <;> omega

/-! ## Decoding -/

theorem specialExponent_add_one (f : BinaryFormat) : f.specialExponent + 1 = 2 ^ f.exponentBits :=
  Nat.sub_add_cancel Nat.one_le_two_pow

theorem infinityWord_lt (f : BinaryFormat) : f.infinityWord < f.signWeight := by
  have h := f.specialExponent_add_one
  simp only [infinityWord, signWeight, Nat.pow_eq, pow_add]
  exact Nat.mul_lt_mul_of_pos_right (by omega) (Nat.two_pow_pos _)

/-- The fields of a word with a sign. -/
theorem fields_withSign (a : Bool) (hw : w < f.signWeight) :
    (f.withSign a w / f.signWeight % 2 == 1) = a ∧
      f.withSign a w / Nat.pow 2 f.fractionBits % Nat.pow 2 f.exponentBits =
        w / 2 ^ f.fractionBits ∧
      f.withSign a w % Nat.pow 2 f.fractionBits = w % 2 ^ f.fractionBits := by
  have hweight : f.signWeight = 2 ^ f.fractionBits * 2 ^ f.exponentBits := by
    simp only [signWeight, Nat.pow_eq, pow_add, mul_comm]
  have hfield : w / 2 ^ f.fractionBits < 2 ^ f.exponentBits := by
    rw [hweight] at hw
    exact Nat.div_lt_of_lt_mul hw
  cases a with
  | false =>
    refine ⟨?_, Nat.mod_eq_of_lt hfield, rfl⟩
    rw [withSign, if_neg Bool.false_ne_true, Nat.div_eq_of_lt hw]
    rfl
  | true =>
    rw [withSign, if_pos rfl]
    refine ⟨?_, ?_, ?_⟩
    · rw [Nat.add_div_left _ (Nat.zero_lt_of_lt hw), Nat.div_eq_of_lt hw]
      rfl
    · simp only [Nat.pow_eq]
      rw [hweight, Nat.mul_add_div (Nat.two_pow_pos _), Nat.add_mod_left, Nat.mod_eq_of_lt hfield]
    · simp only [Nat.pow_eq]
      rw [hweight, Nat.mul_add_mod]

theorem decode_withSign (a : Bool) (hw : w < f.signWeight) :
    f.decode (f.withSign a w) =
      if w / 2 ^ f.fractionBits = f.specialExponent then
        if w % 2 ^ f.fractionBits = 0 then .infinite a else .nan
      else if w / 2 ^ f.fractionBits = 0 then .finite a (w % 2 ^ f.fractionBits) f.minExponent
      else .finite a (2 ^ f.fractionBits + w % 2 ^ f.fractionBits)
        (f.minExponent + (w / 2 ^ f.fractionBits : ℕ) - 1) := by
  obtain ⟨hsign, hexponent, hfraction⟩ := fields_withSign a hw
  rw [decode, hsign, hexponent, hfraction]
  rfl

theorem Canonical.magnitudeWord_lt (h : f.Canonical m e) : f.magnitudeWord m e < f.infinityWord := by
  have hsteps : (e - f.minExponent).toNat + 2 ≤ f.specialExponent := by
    have := h.minExponent_le
    have := h.exponent_lt
    omega
  have hm := h.significand_lt
  rw [pow_succ'] at hm
  calc f.magnitudeWord m e < ((e - f.minExponent).toNat + 2) * 2 ^ f.fractionBits := by
        rw [magnitudeWord, add_mul]
        exact Nat.add_lt_add_left hm _
    _ ≤ f.infinityWord := Nat.mul_le_mul_right _ hsteps

theorem Canonical.decode_withSign (h : f.Canonical m e) (a : Bool) :
    f.decode (f.withSign a (f.magnitudeWord m e)) = .finite a m e := by
  have hpos := Nat.two_pow_pos f.fractionBits
  have hmin := h.minExponent_le
  have hmax := h.exponent_lt
  have hm := h.significand_lt
  rw [BinaryFormat.decode_withSign a (h.magnitudeWord_lt.trans f.infinityWord_lt), magnitudeWord,
    Nat.mul_add_mod', add_comm, Nat.add_mul_div_right _ _ hpos]
  by_cases hlt : m < 2 ^ f.fractionBits
  · have he : e = f.minExponent := h.eq_or_le.resolve_right (by omega)
    rw [Nat.div_eq_of_lt hlt, Nat.mod_eq_of_lt hlt, if_neg (by omega), if_pos (by omega), he]
  · have hdiv : m / 2 ^ f.fractionBits = 1 :=
      Nat.div_eq_of_lt_le (by omega) (by rw [pow_succ'] at hm; omega)
    have hmod : 2 ^ f.fractionBits + m % 2 ^ f.fractionBits = m := by
      have := Nat.div_add_mod m (2 ^ f.fractionBits)
      rwa [hdiv, mul_one] at this
    rw [hdiv, hmod, if_neg (by omega), if_neg (by omega)]
    congr 1
    omega

theorem withSign_lt (a : Bool) (hw : w < f.signWeight) : f.withSign a w < 2 * f.signWeight := by
  rw [withSign]
  split_ifs <;> omega

theorem decode_withSign_infinityWord (f : BinaryFormat) (a : Bool) :
    f.decode (f.withSign a f.infinityWord) = .infinite a := by
  have hword : f.infinityWord = f.specialExponent * 2 ^ f.fractionBits := rfl
  rw [decode_withSign a f.infinityWord_lt, hword,
    if_pos (Nat.mul_div_left _ (Nat.two_pow_pos _)), if_pos (Nat.mul_mod_left _ _)]

theorem exists_withSign (hw : w < 2 * f.signWeight) :
    ∃ a u, u < f.signWeight ∧ w = f.withSign a u := by
  by_cases h : w < f.signWeight
  · exact ⟨false, w, h, rfl⟩
  · refine ⟨true, w - f.signWeight, by omega, ?_⟩
    rw [withSign, if_pos rfl]
    omega

/-- A finite word holds a canonical form. -/
theorem canonical_of_decode (hf : 1 < f.specialExponent) (hw : w < 2 * f.signWeight)
    (h : f.decode w = .finite a m e) :
    f.Canonical m e ∧ w = f.withSign a (f.magnitudeWord m e) := by
  obtain ⟨b, u, hu, rfl⟩ := exists_withSign hw
  have hdivmod := Nat.div_add_mod' u (2 ^ f.fractionBits)
  have hmod := Nat.mod_lt u (Nat.two_pow_pos f.fractionBits)
  have hfield : u / 2 ^ f.fractionBits ≤ f.specialExponent := by
    rw [signWeight, Nat.pow_eq, pow_add, mul_comm] at hu
    have := Nat.div_lt_of_lt_mul hu
    have := f.specialExponent_add_one
    omega
  rw [decode_withSign b hu] at h
  split_ifs at h with hspecial hzero hzero
  · injection h with ha hm he
    subst ha hm he
    rw [hzero, zero_mul, zero_add] at hdivmod
    rw [hdivmod] at hmod ⊢
    refine ⟨⟨by rw [pow_succ']; omega, le_rfl, .inl rfl, by omega⟩, ?_⟩
    rw [magnitudeWord, sub_self, Int.toNat_zero, zero_mul, zero_add]
  · injection h with ha hm he
    subst ha hm he
    obtain ⟨k, hk⟩ := Nat.exists_eq_succ_of_ne_zero hzero
    rw [hk] at hdivmod hfield hspecial ⊢
    refine ⟨⟨by rw [pow_succ']; omega, by omega, .inr (Nat.le_add_right _ _), by omega⟩, ?_⟩
    have hsteps : (f.minExponent + (k.succ : ℕ) - 1 - f.minExponent).toNat = k := by omega
    rw [magnitudeWord, hsteps, ← add_assoc, ← Nat.succ_mul, hdivmod]

theorem decode_eq_nan_iff : f.decode w = .nan ↔
    w / 2 ^ f.fractionBits % 2 ^ f.exponentBits = f.specialExponent ∧ w % 2 ^ f.fractionBits ≠ 0 := by
  simp only [decode, Nat.pow_eq]
  split_ifs with hspecial hfraction
  · exact iff_of_false nofun fun h => h.2 hfraction
  · exact iff_of_true rfl ⟨hspecial, hfraction⟩
  · exact iff_of_false nofun fun h => hspecial h.1
  · exact iff_of_false nofun fun h => hspecial h.1

theorem eq_infinityWord_of_decode (hw : w < 2 * f.signWeight) (h : f.decode w = .infinite a) :
    w = f.withSign a f.infinityWord := by
  obtain ⟨b, u, hu, rfl⟩ := exists_withSign hw
  have hdivmod := Nat.div_add_mod' u (2 ^ f.fractionBits)
  rw [decode_withSign b hu] at h
  split_ifs at h with hspecial hzero
  injection h with ha
  rw [hspecial, hzero, add_zero] at hdivmod
  rw [ha, ← hdivmod]
  rfl

/-! ## Rounding -/

/-- A quotient that is a number of the format is rounded to the word of this number. -/
theorem Canonical.roundMagnitude_eq (h : f.Canonical m e) (hden : den ≠ 0)
    (heq : (num : ℚ) / den = m * 2 ^ e) : f.roundMagnitude num den = f.magnitudeWord m e := by
  have hpos : (0 : ℚ) < den := by exact_mod_cast Nat.pos_of_ne_zero hden
  have hmin := h.minExponent_le
  by_cases hnum : num = 0
  · have hm : m = 0 := by
      rw [hnum, Nat.cast_zero, zero_div] at heq
      exact_mod_cast (mul_eq_zero.1 heq.symm).resolve_right (two_zpow_pos e).ne'
    have he : e = f.minExponent := by
      refine h.eq_or_le.resolve_right fun hle => ?_
      have := Nat.two_pow_pos f.fractionBits
      omega
    rw [roundMagnitude, if_pos hnum, magnitudeWord, hm, he, sub_self, Int.toNat_zero, zero_mul]
  · obtain ⟨hlow, hhigh⟩ := ratioLog2_bounds hnum hden
    rw [heq] at hlow hhigh
    have hle : ratioLog2 num den - f.fractionBits ≤ e := by
      have hlt := hlow.trans_lt (mul_lt_two_zpow h.significand_lt e)
      have := (zpow_lt_zpow_iff_right₀ one_lt_two).1 hlt
      omega
    have hmax : max (ratioLog2 num den - f.fractionBits) f.minExponent = e := by
      rcases h.eq_or_le with he | hbits
      · rw [he] at hle ⊢
        exact max_eq_right hle
      · have hlt := (two_zpow_le_mul hbits e).trans_lt hhigh
        have := (zpow_lt_zpow_iff_right₀ one_lt_two).1 hlt
        omega
    simp only [roundMagnitude, if_neg hnum, hmax, roundScaled_eq hden heq]
    exact min_eq_left h.magnitudeWord_lt.le

/-- A number that fits in the bits and in the range of the format has a canonical form. -/
theorem exists_canonical (hf : 1 < f.specialExponent) (hm : m < 2 ^ (f.fractionBits + 1))
    (he : f.minExponent ≤ e)
    (hlt : (m : ℚ) * 2 ^ e < 2 ^ (f.minExponent + f.specialExponent + f.fractionBits - 1)) :
    ∃ n k, f.Canonical n k ∧ (n : ℚ) * 2 ^ k = m * 2 ^ e := by
  -- on the number of places by which the exponent can be lowered
  obtain ⟨places, hplaces⟩ := Int.eq_ofNat_of_zero_le (Int.sub_nonneg.2 he)
  induction places generalizing m e with
  | zero => exact ⟨m, e, ⟨hm, he, .inl (by omega), by omega⟩, rfl⟩
  | succ places ih =>
    by_cases hbits : 2 ^ f.fractionBits ≤ m
    · refine ⟨m, e, ⟨hm, he, .inr hbits, ?_⟩, rfl⟩
      have := (zpow_lt_zpow_iff_right₀ one_lt_two).1 ((two_zpow_le_mul hbits e).trans_lt hlt)
      omega
    · have heq : ((2 * m : ℕ) : ℚ) * 2 ^ (e - 1) = m * 2 ^ e := by
        rw [zpow_sub_one₀ two_ne_zero]
        push_cast
        ring
      obtain ⟨n, k, hc, hvalue⟩ := ih (m := 2 * m) (e := e - 1) (by rw [pow_succ']; omega)
        (by omega) (by rwa [heq]) (by omega)
      exact ⟨n, k, hc, hvalue.trans heq⟩

/-- A number that fits in the bits of a significand is not changed by rounding to them. -/
theorem roundNat_eq {p : ℕ} (hm : m < 2 ^ (f.fractionBits + 1)) :
    f.roundNat (m * 2 ^ p) = m * 2 ^ p := by
  have hle : (m * 2 ^ p).log2 - f.fractionBits ≤ p := by
    have hlt : m * 2 ^ p < 2 ^ (f.fractionBits + 1 + p) := by
      rw [pow_add]
      exact Nat.mul_lt_mul_of_pos_right hm (Nat.two_pow_pos p)
    by_cases hzero : m * 2 ^ p = 0
    · rw [hzero, Nat.log2_zero]
      omega
    · have := (Nat.log2_lt hzero).2 hlt
      omega
  obtain ⟨n, hn⟩ := (Nat.pow_dvd_pow 2 hle).mul_left m
  have hround : f.roundNat (m * 2 ^ p) =
      roundHalfEven (m * 2 ^ p) (2 ^ ((m * 2 ^ p).log2 - f.fractionBits)) *
        2 ^ ((m * 2 ^ p).log2 - f.fractionBits) := rfl
  generalize (m * 2 ^ p).log2 - f.fractionBits = k at hn hround
  rw [hround, hn, mul_comm _ n, roundHalfEven_mul n (Nat.two_pow_pos k)]

end BinaryFormat

end Formula
