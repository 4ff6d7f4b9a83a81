import Formula.Fraction.Basic
import Formula.Proofs.Extended
import Mathlib.Tactic.FieldSimp
import Mathlib.Tactic.LinearCombination

/-!
# What fractions stand for

`value f` is the extended rational a fraction stands for. All operations give well-formed fractions
(`wellFormed_add`, …), and on well-formed operands they are the operations of the extended rationals
(`value_add`, …). Equality of fractions is equality of values, except that NaN differs from itself
(`beq_iff`).
-/

namespace Formula.Fraction

/-- The extended rational a fraction stands for. -/
def value : Fraction → Extended
  | finite negative numerator denominator => .finite (signed negative numerator / denominator)
  | infinite negative => .infinite negative
  | nan => .nan

instance : DecidablePred WellFormed
  | finite negative numerator denominator =>
    inferInstanceAs (Decidable (denominator ≠ 0 ∧ (numerator = 0 → negative = false)))
  | infinite _ => isTrue trivial
  | nan => isTrue trivial

theorem value_finite (a : Bool) (n d : ℕ) : (finite a n d).value = .finite (signed a n / d) := rfl

@[simp] theorem value_infinite (a : Bool) : (infinite a).value = .infinite a := rfl

@[simp] theorem value_nan : nan.value = .nan := rfl

@[simp] theorem value_zero : zero.value = 0 := by
  simp [zero, value, signed, Extended.zero_def]

@[simp] theorem value_one : one.value = 1 := by
  simp [one, value, signed, Extended.one_def]

theorem wellFormed_zero : zero.WellFormed := by simp [zero, WellFormed]

theorem wellFormed_one : one.WellFormed := by simp [one, WellFormed]

theorem wellFormed_infinite (a : Bool) : (infinite a).WellFormed := trivial

theorem isNaN_iff {f : Fraction} : f.isNaN = true ↔ f.value = .nan := by
  cases f <;> simp [value, isNaN]

theorem value_eq_nan_iff {f : Fraction} : f.value = .nan ↔ f = nan := by
  cases f <;> simp [value]

theorem isFinite_iff {f : Fraction} : f.isFinite = true ↔ ∃ q, f.value = .finite q := by
  cases f <;> simp [value, isFinite]

theorem exists_eq_finite {f : Fraction} (h : f.isFinite = true) : ∃ a n d, f = finite a n d := by
  cases f with
  | finite a n d => exact ⟨a, n, d, rfl⟩
  | infinite a => cases h
  | nan => cases h

/-! ## Signs -/

theorem signed_zero (a : Bool) : signed a 0 = 0 := by cases a <;> rfl

theorem signed_mul_natCast (a : Bool) (n k : ℕ) : signed a (n * k) = signed a n * k := by
  cases a <;> simp [signed]

theorem signed_bne (a b : Bool) (n m : ℕ) :
    signed (a != b) (n * m) = signed a n * signed b m := by
  cases a <;> cases b <;> simp [signed]

theorem signed_not (a : Bool) (n : ℕ) : signed (!a) n = -signed a n := by
  cases a <;> simp [signed]

theorem signed_natAbs (n : ℤ) : signed (decide (n < 0)) n.natAbs = n := by
  unfold signed
  split_ifs with h
  · have : n < 0 := by simpa using h
    omega
  · have : ¬ n < 0 := by simpa using h
    omega

theorem natAbs_signed (a : Bool) (n : ℕ) : (signed a n).natAbs = n := by
  cases a <;> simp [signed]

theorem abs_signed (a : Bool) (n : ℕ) : |(signed a n : ℚ)| = n := by
  cases a <;> simp [signed]

/-- The numerator decides whether a well-formed fraction is zero, and the sign whether it is
negative. -/
theorem signed_neg_iff {a : Bool} {n : ℕ} (h : n = 0 → a = false) : signed a n < 0 ↔ a = true := by
  cases a with
  | false => simp [signed]
  | true =>
    have hn : n ≠ 0 := fun hn => by simpa using h hn
    simp only [signed, if_true, iff_true]
    omega

/-! ## Construction -/

theorem wellFormed_ofParts (a : Bool) (n d : ℕ) : (ofParts a n d).WellFormed := by
  unfold ofParts
  split_ifs with hd hn
  · trivial
  · trivial
  · refine ⟨hd, fun hn => ?_⟩
    simp [hn]

theorem value_ofParts (a : Bool) (n : ℕ) {d : ℕ} (hd : d ≠ 0) :
    (ofParts a n d).value = .finite (signed a n / d) := by
  rw [ofParts, if_neg hd, value]
  by_cases hn : n = 0
  · subst hn
    simp [signed_zero]
  · rw [bne_iff_ne.2 hn, Bool.and_true]

theorem ofParts_zero (a : Bool) {n : ℕ} (hn : n ≠ 0) : ofParts a n 0 = infinite a := by
  simp [ofParts, hn]

theorem wellFormed_ofInts (n d : ℤ) : (ofInts n d).WellFormed :=
  wellFormed_ofParts _ _ _

theorem value_ofInts (n : ℤ) {d : ℕ} (hd : d ≠ 0) : (ofInts n d).value = .finite (n / d) := by
  have hneg : ¬ (d : ℤ) < 0 := by omega
  rw [ofInts, Int.natAbs_natCast, value_ofParts _ _ hd]
  simp [hneg, signed_natAbs]

theorem wellFormed_ofInt (n : ℤ) : (ofInt n).WellFormed :=
  wellFormed_ofInts n 1

theorem value_ofInt (n : ℤ) : (ofInt n).value = .finite n := by
  have h := value_ofInts n one_ne_zero
  rwa [Nat.cast_one, Nat.cast_one, div_one] at h

/-! ## Operations on one fraction -/

theorem wellFormed_simplified {f : Fraction} (hf : f.WellFormed) : f.simplified.WellFormed := by
  cases f with
  | finite a n d =>
    simp only [simplified]
    split_ifs
    · exact hf
    · exact wellFormed_ofParts _ _ _
  | infinite a => trivial
  | nan => trivial

theorem value_simplified {f : Fraction} (hf : f.WellFormed) : f.simplified.value = f.value := by
  cases f with
  | infinite a => rfl
  | nan => rfl
  | finite a n d =>
    simp only [simplified]
    split_ifs with hg
    · rfl
    obtain ⟨k, hk⟩ := Nat.gcd_dvd_left n d
    obtain ⟨l, hl⟩ := Nat.gcd_dvd_right n d
    set g := n.gcd d with hgdef
    have hg0 : g ≠ 0 := fun h => hg (.inl h)
    have hl0 : l ≠ 0 := by
      rintro rfl
      exact hf.1 (by simpa using hl)
    have hk' : n / g = k := by rw [hk, Nat.mul_div_cancel_left _ (Nat.pos_of_ne_zero hg0)]
    have hl' : d / g = l := by rw [hl, Nat.mul_div_cancel_left _ (Nat.pos_of_ne_zero hg0)]
    have hn : signed a n = signed a k * g := by rw [hk, Nat.mul_comm, signed_mul_natCast]
    have hgq : (g : ℚ) ≠ 0 := by exact_mod_cast hg0
    have hlq : (l : ℚ) ≠ 0 := by exact_mod_cast hl0
    rw [hk', hl', value_ofParts _ _ hl0, value, hn, hl]
    push_cast
    congr 1
    field_simp

theorem wellFormed_neg (f : Fraction) : (-f).WellFormed := by
  cases f with
  | finite a n d => exact wellFormed_ofParts _ _ _
  | infinite a => trivial
  | nan => trivial

theorem value_neg {f : Fraction} (hf : f.WellFormed) : (-f).value = -f.value := by
  cases f with
  | finite a n d =>
    change (ofParts (!a) n d).value = _
    rw [value_ofParts _ _ hf.1, signed_not, value, Extended.neg_finite]
    push_cast
    rw [neg_div]
  | infinite a => rfl
  | nan => rfl

/-- A double negation gives the same terms again. -/
protected theorem neg_neg {f : Fraction} (hf : f.WellFormed) : - -f = f := by
  cases f with
  | infinite a =>
    show infinite (!!a) = _
    rw [Bool.not_not]
  | nan => rfl
  | finite a n d =>
    have hneg : ∀ b, -finite b n d = finite (!b && n != 0) n d := fun b => if_neg hf.1
    rw [hneg, hneg]
    by_cases hn : n = 0
    · rw [hf.2 hn, hn]
      rfl
    · rw [bne_iff_ne.2 hn, Bool.and_true, Bool.and_true, Bool.not_not]

theorem wellFormed_abs (f : Fraction) : f.abs.WellFormed := by
  cases f with
  | finite a n d => exact wellFormed_ofParts _ _ _
  | infinite a => trivial
  | nan => trivial

theorem value_abs {f : Fraction} (hf : f.WellFormed) : f.abs.value = f.value.abs := by
  cases f with
  | finite a n d =>
    rw [abs, value_ofParts _ _ hf.1, value, Extended.abs_finite, abs_div, abs_signed]
    simp [signed]
  | infinite a => rfl
  | nan => rfl

theorem wellFormed_reciprocal (f : Fraction) : f.reciprocal.WellFormed := by
  cases f with
  | finite a n d => exact wellFormed_ofParts _ _ _
  | infinite a => exact wellFormed_zero
  | nan => trivial

theorem value_reciprocal {f : Fraction} (hf : f.WellFormed) : f.reciprocal.value = f.value⁻¹ := by
  cases f with
  | infinite a => exact value_zero
  | nan => rfl
  | finite a n d =>
    rw [reciprocal, value, Extended.inv_finite]
    have hd : (d : ℚ) ≠ 0 := by exact_mod_cast hf.1
    by_cases hn : n = 0
    · subst hn
      rw [ofParts_zero _ hf.1, hf.2 rfl]
      simp [signed_zero]
    · have hnq : (n : ℚ) ≠ 0 := by exact_mod_cast hn
      have hs : (signed a n : ℚ) ≠ 0 := by
        rw [← abs_ne_zero, abs_signed]
        exact hnq
      rw [value_ofParts _ _ hn, if_neg (div_ne_zero hs hd), inv_div]
      congr 1
      cases a <;> simp [signed, neg_div, div_neg]

theorem wellFormed_trunc {f : Fraction} : f.trunc.WellFormed := by
  cases f with
  | finite a n d => exact wellFormed_ofParts _ _ _
  | infinite a => trivial
  | nan => trivial

theorem truncate_signed {a : Bool} {n d : ℕ} (hf : (finite a n d).WellFormed) :
    Extended.truncate (signed a n / d) = signed a (n / d) := by
  have hd : (0 : ℚ) < d := by exact_mod_cast Nat.pos_of_ne_zero hf.1
  have hfloor : ⌊(n : ℚ) / d⌋ = ((n / d : ℕ) : ℤ) := by
    exact_mod_cast Rat.floor_natCast_div_natCast n d
  have hneg : (signed a n : ℚ) / d < 0 ↔ a = true := by
    rw [div_lt_iff₀ hd, zero_mul, ← signed_neg_iff hf.2]
    exact_mod_cast Iff.rfl
  unfold Extended.truncate
  cases a with
  | true =>
    rw [if_pos (hneg.2 rfl)]
    simp [signed, neg_div, Int.ceil_neg, hfloor]
  | false =>
    rw [if_neg (by simp [hneg])]
    simp [signed, hfloor]

theorem value_trunc {f : Fraction} (hf : f.WellFormed) : f.trunc.value = f.value.trunc := by
  cases f with
  | infinite a => rfl
  | nan => rfl
  | finite a n d =>
    rw [trunc, value_ofParts _ _ one_ne_zero, Nat.cast_one, div_one, value, Extended.trunc,
      truncate_signed hf]

/-! ## Tests -/

theorem isZero_iff {f : Fraction} (hf : f.WellFormed) : f.isZero = true ↔ f.value = 0 := by
  cases f with
  | infinite a => simp [isZero, zero, BEq.beq, beq, Extended.zero_def]
  | nan => simp [isZero, BEq.beq, beq, Extended.zero_def]
  | finite a n d =>
    have hd : (d : ℚ) ≠ 0 := by exact_mod_cast hf.1
    have hz : (signed a n : ℚ) = 0 ↔ n = 0 := by
      rw [← abs_eq_zero, abs_signed, Nat.cast_eq_zero]
    have hbeq : (finite a n d).isZero = (a == false && n * 1 == 0 * d) := rfl
    rw [hbeq, value, Extended.zero_def, Extended.finite.injEq, div_eq_zero_iff, or_iff_left hd, hz]
    simp only [Nat.mul_one, Nat.zero_mul, Bool.and_eq_true, beq_iff_eq]
    exact ⟨And.right, fun h => ⟨hf.2 h, h⟩⟩

theorem isZero_neg {f : Fraction} (hf : f.WellFormed) : (-f).isZero = f.isZero := by
  rw [Bool.eq_iff_iff, isZero_iff (wellFormed_neg f), isZero_iff hf, value_neg hf]
  cases f.value <;> simp [Extended.zero_def]

theorem isNegative_finite {a : Bool} {n d : ℕ} (hf : (finite a n d).WellFormed) :
    (finite a n d).isNegative = decide ((signed a n : ℚ) / d < 0) := by
  have hd : (0 : ℚ) < d := by exact_mod_cast Nat.pos_of_ne_zero hf.1
  have hdiv : (signed a n : ℚ) / d < 0 ↔ signed a n < 0 := by
    rw [div_lt_iff₀ hd, zero_mul]
    exact_mod_cast Iff.rfl
  rw [isNegative, Bool.eq_iff_iff, decide_eq_true_iff, hdiv, signed_neg_iff hf.2]

theorem isWhole_iff {a : Bool} {n d : ℕ} (hf : (finite a n d).WellFormed) :
    (finite a n d).isWhole = true ↔ ∃ k : ℤ, (signed a n : ℚ) / d = k := by
  have hd : (d : ℚ) ≠ 0 := by exact_mod_cast hf.1
  rw [isWhole, beq_iff_eq, ← Nat.dvd_iff_mod_eq_zero]
  constructor
  · rintro ⟨k, rfl⟩
    refine ⟨signed a k, ?_⟩
    rw [Nat.mul_comm, signed_mul_natCast]
    push_cast
    rw [mul_div_cancel_right₀ _ hd]
  · rintro ⟨k, hk⟩
    rw [div_eq_iff hd] at hk
    have habs := congrArg (fun q : ℚ => |q|) hk
    simp only [abs_mul, abs_signed, Nat.abs_cast] at habs
    refine ⟨k.natAbs, ?_⟩
    have hcast : (n : ℤ) = |k| * d := by exact_mod_cast habs
    rw [Int.abs_eq_natAbs] at hcast
    rw [Nat.mul_comm]
    exact_mod_cast hcast

/-- Fractions are equal if their values are, except for NaN. -/
theorem beq_iff {f g : Fraction} (hf : f.WellFormed) (hg : g.WellFormed) :
    (f == g) = true ↔ f.value = g.value ∧ f.value ≠ .nan := by
  cases f with
  | infinite a => cases g <;> simp [BEq.beq, beq, value]
  | nan => cases g <;> simp [BEq.beq, beq, value]
  | finite a n d =>
    cases g with
    | infinite b => simp [BEq.beq, beq, value]
    | nan => simp [BEq.beq, beq, value]
    | finite b m e =>
      have hd : (d : ℚ) ≠ 0 := by exact_mod_cast hf.1
      have he : (e : ℚ) ≠ 0 := by exact_mod_cast hg.1
      have hbeq : (finite a n d == finite b m e) = (a == b && n * e == m * d) := rfl
      have hcross : (signed a n : ℚ) * e = signed b m * d ↔ a = b ∧ n * e = m * d := by
        constructor
        · intro h
          have hq : (signed a n : ℚ) / d = signed b m / e := (div_eq_div_iff hd he).2 h
          have hab : a = b := by
            have ha := isNegative_finite hf
            have hb := isNegative_finite hg
            rw [hq] at ha
            exact ha.trans hb.symm
          have habs := congrArg (fun q : ℚ => |q|) h
          simp only [abs_mul, abs_signed, Nat.abs_cast] at habs
          exact ⟨hab, by exact_mod_cast habs⟩
        · rintro ⟨rfl, h⟩
          have : signed a (n * e) = signed a (m * d) := by rw [h]
          rw [signed_mul_natCast, signed_mul_natCast] at this
          exact_mod_cast this
      rw [hbeq, value, value, Extended.finite.injEq, div_eq_div_iff hd he, hcross]
      simp

/-! ## Arithmetic -/

theorem wellFormed_add (f g : Fraction) (hf : f.WellFormed) (hg : g.WellFormed) :
    (f + g).WellFormed := by
  cases f with
  | nan => trivial
  | infinite a =>
    cases g with
    | infinite b =>
      change (if a = b then infinite a else nan).WellFormed
      split_ifs <;> trivial
    | finite b m e => trivial
    | nan => trivial
  | finite a n d =>
    cases g with
    | finite b m e => exact wellFormed_ofInts _ _
    | infinite b => trivial
    | nan => trivial

theorem value_add {f g : Fraction} (hf : f.WellFormed) (hg : g.WellFormed) :
    (f + g).value = f.value + g.value := by
  cases f with
  | nan => rfl
  | infinite a =>
    cases g with
    | infinite b =>
      change (if a = b then infinite a else nan).value = _
      rw [value_infinite, value_infinite, Extended.infinite_add]
      split_ifs <;> rfl
    | finite b m e => rfl
    | nan => rfl
  | finite a n d =>
    cases g with
    | infinite b => rfl
    | nan => rfl
    | finite b m e =>
      change (ofInts (signed a (n * (d.lcm e / d)) + signed b (m * (d.lcm e / e)))
        (d.lcm e)).value = _
      obtain ⟨k, hk⟩ := Nat.dvd_lcm_left d e
      obtain ⟨l, hl⟩ := Nat.dvd_lcm_right d e
      have hd : (d : ℚ) ≠ 0 := by exact_mod_cast hf.1
      have he : (e : ℚ) ≠ 0 := by exact_mod_cast hg.1
      have hc : d.lcm e ≠ 0 := Nat.lcm_ne_zero hf.1 hg.1
      have hcq : ((d.lcm e : ℕ) : ℚ) ≠ 0 := by exact_mod_cast hc
      have hdk : d.lcm e / d = k := Nat.div_eq_of_eq_mul_right (Nat.pos_of_ne_zero hf.1) hk
      have hel : d.lcm e / e = l := Nat.div_eq_of_eq_mul_right (Nat.pos_of_ne_zero hg.1) hl
      have hkq : ((d.lcm e : ℕ) : ℚ) = d * k := by exact_mod_cast hk
      have hlq : ((d.lcm e : ℕ) : ℚ) = e * l := by exact_mod_cast hl
      rw [value_ofInts _ hc, value, value, Extended.finite_add, hdk, hel, signed_mul_natCast,
        signed_mul_natCast]
      congr 1
      push_cast
      rw [add_div]
      congr 1
      · rw [hkq, mul_div_mul_right]
        rintro h0
        exact hcq (by rw [hkq, h0, mul_zero])
      · rw [hlq, mul_div_mul_right]
        rintro h0
        exact hcq (by rw [hlq, h0, mul_zero])

theorem wellFormed_sub {f g : Fraction} (hf : f.WellFormed) : (f - g).WellFormed :=
  wellFormed_add f (-g) hf (wellFormed_neg g)

theorem value_sub {f g : Fraction} (hf : f.WellFormed) (hg : g.WellFormed) :
    (f - g).value = f.value + -g.value := by
  change (f + -g).value = _
  rw [value_add hf (wellFormed_neg g), value_neg hg]

/-- An infinity times a finite fraction. -/
theorem infinite_mul_finite (a b : Bool) (m e : ℕ) :
    infinite a * finite b m e =
      if (finite b m e).isZero then nan else infinite (a != (finite b m e).isNegative) := rfl

/-- A finite fraction times an infinity. -/
theorem finite_mul_infinite (a b : Bool) (n d : ℕ) :
    finite a n d * infinite b =
      if (finite a n d).isZero then nan else infinite ((finite a n d).isNegative != b) := by
  change (if (finite a n d).isZero || false then _ else _) = _
  rw [Bool.or_false]
  rfl

theorem wellFormed_mul (f g : Fraction) : (f * g).WellFormed := by
  cases f with
  | nan => trivial
  | infinite a =>
    cases g with
    | nan => trivial
    | infinite b => trivial
    | finite b m e =>
      rw [infinite_mul_finite]
      split_ifs <;> trivial
  | finite a n d =>
    cases g with
    | nan => trivial
    | finite b m e => exact wellFormed_simplified (wellFormed_ofParts _ _ _)
    | infinite b =>
      rw [finite_mul_infinite]
      split_ifs <;> trivial

theorem value_mul {f g : Fraction} (hf : f.WellFormed) (hg : g.WellFormed) :
    (f * g).value = f.value * g.value := by
  cases f with
  | nan => rfl
  | infinite a =>
    cases g with
    | nan => rfl
    | infinite b => rfl
    | finite b m e =>
      rw [infinite_mul_finite, isNegative_finite hg, apply_ite value]
      simp only [isZero_iff hg, value, Extended.zero_def, Extended.finite.injEq]
      rfl
  | finite a n d =>
    cases g with
    | nan => rfl
    | infinite b =>
      rw [finite_mul_infinite, isNegative_finite hf, apply_ite value]
      simp only [isZero_iff hf, value, Extended.zero_def, Extended.finite.injEq]
      rfl
    | finite b m e =>
      change (ofParts (a != b) (n * m) (d * e)).simplified.value = _
      rw [value_simplified (wellFormed_ofParts _ _ _), value_ofParts _ _ (Nat.mul_ne_zero hf.1 hg.1),
        signed_bne, value, value, Extended.finite_mul]
      push_cast
      rw [div_mul_div_comm]

theorem wellFormed_div (f g : Fraction) : (f / g).WellFormed := by
  have hmul : (f * g.reciprocal).WellFormed := wellFormed_mul f g.reciprocal
  cases f with
  | infinite a =>
    cases g with
    | infinite b => trivial
    | finite b m e => exact hmul
    | nan => exact hmul
  | finite a n d => exact hmul
  | nan => exact hmul

theorem value_div {f g : Fraction} (hf : f.WellFormed) (hg : g.WellFormed) :
    (f / g).value = f.value * g.value⁻¹ := by
  have hmul : (f * g.reciprocal).value = f.value * g.value⁻¹ := by
    rw [value_mul hf (wellFormed_reciprocal g), value_reciprocal hg]
  cases f with
  | infinite a =>
    cases g with
    | infinite b => rfl
    | finite b m e => exact hmul
    | nan => exact hmul
  | finite a n d => exact hmul
  | nan => exact hmul

/-- The remainder of finite fractions, which is NaN for the divisor zero. -/
theorem modulo_finite (a b : Bool) (n d m e : ℕ) :
    (finite a n d).modulo (finite b m e) =
      if (finite b m e).isZero then nan
      else (finite a n d - finite b m e * (finite a n d / finite b m e).trunc).simplified := rfl

theorem wellFormed_modulo {f g : Fraction} (hf : f.WellFormed) : (f.modulo g).WellFormed := by
  cases f with
  | nan => trivial
  | infinite a => cases g <;> trivial
  | finite a n d =>
    cases g with
    | nan => trivial
    | infinite b => exact hf
    | finite b m e =>
      rw [modulo_finite]
      split_ifs
      · trivial
      · exact wellFormed_simplified (wellFormed_sub hf)

theorem value_modulo {f g : Fraction} (hf : f.WellFormed) (hg : g.WellFormed) :
    (f.modulo g).value = f.value.modulo g.value := by
  cases f with
  | nan => rfl
  | infinite a => cases g <;> rfl
  | finite a n d =>
    cases g with
    | nan => rfl
    | infinite b => rfl
    | finite b m e =>
      rw [modulo_finite, apply_ite value]
      simp only [isZero_iff hg, value_finite, Extended.zero_def, Extended.finite.injEq,
        Extended.modulo_finite]
      by_cases hq : (signed b m : ℚ) / e = 0
      · rw [if_pos hq, if_pos hq]
        rfl
      have hdiv : (finite a n d / finite b m e).value = .finite (signed a n / d / (signed b m / e)) := by
        rw [value_div hf hg, value_finite, value_finite, Extended.inv_finite, if_neg hq,
          Extended.finite_mul, ← div_eq_mul_inv]
      rw [if_neg hq, if_neg hq, value_simplified (wellFormed_sub hf),
        value_sub hf (wellFormed_mul _ _), value_mul hg wellFormed_trunc,
        value_trunc (wellFormed_div _ _), hdiv, Extended.trunc, value_finite, value_finite,
        Extended.finite_mul, Extended.neg_finite, Extended.finite_add, sub_eq_add_neg]

end Formula.Fraction
