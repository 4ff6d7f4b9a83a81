import Mathlib.Data.EReal.Inv
import Mathlib.Data.Rat.Cast.Order
import Mathlib.Data.Rat.Floor
import Mathlib.Tactic.Linarith

/-!
# The extended rationals

The numbers that fractions stand for: the rationals, two infinities and NaN. Sums and products
follow the same conventions as the arithmetic of fractions, so that `Fraction.value` commutes with
all operations. Addition makes the type a commutative monoid in which NaN absorbs everything.

The order leaves NaN out. On all other numbers it is the order of the extended reals
(`le_iff_toEReal`), which is where the monotonicity of sums and products is taken from.
-/

namespace Formula

/-- A rational number, an infinity, or NaN. -/
inductive Extended where
  | finite (q : ℚ)
  | infinite (negative : Bool)
  | nan
deriving DecidableEq

namespace Extended

/-! ## Arithmetic -/

/-- The negation. -/
def neg : Extended → Extended
  | finite q => finite (-q)
  | infinite negative => infinite (!negative)
  | nan => nan

/-- The sum. Infinities of opposite signs have none. -/
def add : Extended → Extended → Extended
  | nan, _ => nan
  | _, nan => nan
  | finite p, finite q => finite (p + q)
  | infinite a, infinite b => if a = b then infinite a else nan
  | infinite a, finite _ => infinite a
  | finite _, infinite b => infinite b

/-- The product. Zero times an infinity is NaN. -/
def mul : Extended → Extended → Extended
  | nan, _ => nan
  | _, nan => nan
  | finite p, finite q => finite (p * q)
  | infinite a, infinite b => infinite (a != b)
  | infinite a, finite q => if q = 0 then nan else infinite (a != decide (q < 0))
  | finite p, infinite b => if p = 0 then nan else infinite (decide (p < 0) != b)

/-- The reciprocal. That of zero is positive infinity. -/
def inv : Extended → Extended
  | finite q => if q = 0 then infinite false else finite q⁻¹
  | infinite _ => finite 0
  | nan => nan

/-- The absolute value. -/
def abs : Extended → Extended
  | finite q => finite |q|
  | infinite _ => infinite false
  | nan => nan

instance : Zero Extended := ⟨finite 0⟩
instance : One Extended := ⟨finite 1⟩
instance : Neg Extended := ⟨neg⟩
instance : Add Extended := ⟨add⟩
instance : Mul Extended := ⟨mul⟩
instance : Inv Extended := ⟨inv⟩

theorem zero_def : (0 : Extended) = finite 0 := rfl

theorem one_def : (1 : Extended) = finite 1 := rfl

@[simp] theorem neg_finite (q : ℚ) : -finite q = finite (-q) := rfl

@[simp] theorem neg_infinite (a : Bool) : -infinite a = infinite (!a) := rfl

@[simp] theorem neg_nan : -nan = nan := rfl

@[simp] protected theorem neg_neg (v : Extended) : - -v = v := by cases v <;> simp

@[simp] theorem finite_add (p q : ℚ) : finite p + finite q = finite (p + q) := rfl

@[simp] theorem infinite_add_finite (a : Bool) (q : ℚ) : infinite a + finite q = infinite a := rfl

@[simp] theorem finite_add_infinite (p : ℚ) (b : Bool) : finite p + infinite b = infinite b := rfl

@[simp] theorem infinite_add (a b : Bool) :
    infinite a + infinite b = if a = b then infinite a else nan := rfl

@[simp] theorem nan_add (v : Extended) : nan + v = nan := rfl

@[simp] theorem add_nan (v : Extended) : v + nan = nan := by cases v <;> rfl

@[simp] theorem finite_mul (p q : ℚ) : finite p * finite q = finite (p * q) := rfl

@[simp] theorem infinite_mul (a b : Bool) : infinite a * infinite b = infinite (a != b) := rfl

@[simp] theorem infinite_mul_finite (a : Bool) (q : ℚ) :
    infinite a * finite q = if q = 0 then nan else infinite (a != decide (q < 0)) := rfl

@[simp] theorem finite_mul_infinite (p : ℚ) (b : Bool) :
    finite p * infinite b = if p = 0 then nan else infinite (decide (p < 0) != b) := rfl

@[simp] theorem nan_mul (v : Extended) : nan * v = nan := rfl

@[simp] theorem mul_nan (v : Extended) : v * nan = nan := by cases v <;> rfl

@[simp] theorem inv_finite (q : ℚ) :
    (finite q)⁻¹ = if q = 0 then infinite false else finite q⁻¹ := rfl

@[simp] theorem inv_infinite (a : Bool) : (infinite a)⁻¹ = finite 0 := rfl

@[simp] theorem inv_nan : nan⁻¹ = nan := rfl

@[simp] theorem abs_finite (q : ℚ) : abs (finite q) = finite |q| := rfl

@[simp] theorem abs_infinite (a : Bool) : abs (infinite a) = infinite false := rfl

@[simp] theorem abs_nan : abs nan = nan := rfl

instance : AddCommMonoid Extended where
  add_assoc u v w := by
    cases u with
    | nan => rfl
    | finite p =>
      cases v <;> cases w <;> simp [add_assoc]
      split <;> simp
    | infinite a =>
      cases v <;> cases w <;> simp
      · split <;> simp
      · rename_i b c
        cases a <;> cases b <;> cases c <;> rfl
  zero_add v := by cases v <;> simp [zero_def]
  add_zero v := by cases v <;> simp [zero_def]
  add_comm v w := by
    cases v <;> cases w <;> simp [add_comm]
    rename_i a b
    cases a <;> cases b <;> rfl
  nsmul := nsmulRec

instance : CommMonoid Extended where
  mul_comm v w := by cases v <;> cases w <;> simp [mul_comm, bne_comm]
  mul_assoc u v w := by
    have hs : ∀ p q : ℚ, p ≠ 0 → q ≠ 0 → decide (p * q < 0) = (decide (p < 0) != decide (q < 0)) := by
      intro p q hp hq
      rcases lt_or_gt_of_ne hp with hp | hp <;> rcases lt_or_gt_of_ne hq with hq | hq <;>
        simp [mul_neg_iff, hp, hq, not_lt.2 hp.le, not_lt.2 hq.le]
    cases u <;> cases v <;> cases w <;> simp [mul_assoc]
    · rename_i p q c
      by_cases hp : p = 0 <;> by_cases hq : q = 0 <;> simp [hp, hq, hs]
    · rename_i p b r
      by_cases hp : p = 0 <;> by_cases hr : r = 0 <;> simp [hp, hr]
    · rename_i a q r
      by_cases hq : q = 0 <;> by_cases hr : r = 0 <;> simp [hq, hr, hs]
  one_mul v := by cases v <;> simp [one_def, not_lt.2 (zero_le_one' ℚ)]
  mul_one v := by cases v <;> simp [one_def, not_lt.2 (zero_le_one' ℚ)]

/-! ## Powers and remainders -/

/-- The power to an integer exponent: the reciprocal of a power if the exponent is negative. -/
def zpow (v : Extended) (n : ℤ) : Extended :=
  if n < 0 then (v ^ n.natAbs)⁻¹ else v ^ n.natAbs

@[simp] theorem finite_pow (q : ℚ) (n : ℕ) : finite q ^ n = finite (q ^ n) := by
  induction n with
  | zero => simp [one_def]
  | succ n ih => rw [pow_succ, ih, finite_mul, pow_succ]

theorem infinite_pow (a : Bool) (n : ℕ) : infinite a ^ (n + 1) = infinite (a && n % 2 == 0) := by
  induction n with
  | zero => simp
  | succ n ih =>
    rw [pow_succ, ih, infinite_mul]
    rcases Nat.mod_two_eq_zero_or_one n with h | h <;> cases a <;> simp [h, Nat.add_mod]

theorem nan_pow (n : ℕ) : nan ^ (n + 1) = nan := by
  rw [pow_succ, mul_nan]

theorem finite_zpow {q : ℚ} {n : ℤ} (h : 0 ≤ n ∨ q ≠ 0) : (finite q).zpow n = finite (q ^ n) := by
  unfold zpow
  split_ifs with hn
  · have hq : q ≠ 0 := h.resolve_left (by omega)
    obtain ⟨m, rfl⟩ : ∃ m : ℕ, n = -m := ⟨n.natAbs, by omega⟩
    simp [hq]
  · lift n to ℕ using by omega
    simp

/-- A rational number without its fractional part. -/
def truncate (q : ℚ) : ℤ :=
  if q < 0 then ⌈q⌉ else ⌊q⌋

/-- The number without its fractional part. -/
def trunc : Extended → Extended
  | finite q => finite (truncate q)
  | v => v

/-- The remainder of the division with the quotient truncated. An infinite divisor is never
reached. -/
def modulo : Extended → Extended → Extended
  | nan, _ => nan
  | _, nan => nan
  | infinite _, _ => nan
  | finite p, infinite _ => finite p
  | finite p, finite q => if q = 0 then nan else finite (p - q * truncate (p / q))

@[simp] theorem modulo_finite (p q : ℚ) :
    (finite p).modulo (finite q) = if q = 0 then nan else finite (p - q * truncate (p / q)) := rfl

@[simp] theorem nan_modulo (v : Extended) : nan.modulo v = nan := rfl

@[simp] theorem modulo_nan (v : Extended) : v.modulo nan = nan := by cases v <;> rfl

@[simp] theorem infinite_modulo (a : Bool) (v : Extended) : (infinite a).modulo v = nan := by
  cases v <;> rfl

@[simp] theorem finite_modulo_infinite (p : ℚ) (b : Bool) :
    (finite p).modulo (infinite b) = finite p := rfl

theorem truncate_intCast (n : ℤ) : truncate n = n := by
  rw [truncate, Int.ceil_intCast, Int.floor_intCast, ite_self]

theorem abs_sub_truncate_lt (q : ℚ) : |q - truncate q| < 1 := by
  unfold truncate
  split_ifs
  · rw [abs_sub_comm, abs_of_nonneg (sub_nonneg.2 (Int.le_ceil q))]
    linarith [Int.ceil_lt_add_one q]
  · rw [abs_of_nonneg (sub_nonneg.2 (Int.floor_le q))]
    linarith [Int.lt_floor_add_one q]

/-- A remainder is of smaller magnitude than the divisor. -/
theorem abs_remainder_lt (p : ℚ) {q : ℚ} (hq : q ≠ 0) : |p - q * truncate (p / q)| < |q| := by
  have h : p - q * truncate (p / q) = q * (p / q - truncate (p / q)) := by
    rw [mul_sub, mul_div_cancel₀ p hq]
  rw [h, abs_mul]
  exact mul_lt_of_lt_one_right (abs_pos.2 hq) (abs_sub_truncate_lt _)

/-! ## Numbers other than NaN -/

theorem ne_nan_of_add {v w : Extended} (h : v + w ≠ nan) : v ≠ nan ∧ w ≠ nan := by
  constructor <;> rintro rfl <;> simp at h

theorem ne_nan_of_mul {v w : Extended} (h : v * w ≠ nan) : v ≠ nan ∧ w ≠ nan := by
  constructor <;> rintro rfl <;> simp at h

theorem neg_ne_nan {v : Extended} : -v ≠ nan ↔ v ≠ nan := by
  cases v <;> simp

theorem inv_ne_nan {v : Extended} : v⁻¹ ≠ nan ↔ v ≠ nan := by
  cases v with
  | finite q => simp only [inv_finite]; split <;> simp
  | infinite a => simp
  | nan => simp

theorem abs_ne_nan {v : Extended} : v.abs ≠ nan ↔ v ≠ nan := by
  cases v <;> simp

/-! ## Order -/

/-- NaN is comparable with nothing, and the infinities bound everything else. -/
def le : Extended → Extended → Prop
  | nan, _ => False
  | _, nan => False
  | infinite true, _ => True
  | _, infinite false => True
  | finite p, finite q => p ≤ q
  | _, _ => False

instance : LE Extended := ⟨le⟩

instance : DecidableLE Extended
  | nan, _ => isFalse id
  | finite _, nan => isFalse id
  | infinite _, nan => isFalse id
  | infinite true, finite _ => isTrue trivial
  | infinite true, infinite _ => isTrue trivial
  | finite _, infinite false => isTrue trivial
  | infinite false, infinite false => isTrue trivial
  | finite p, finite q => inferInstanceAs (Decidable (p ≤ q))
  | infinite false, finite _ => isFalse id
  | infinite false, infinite true => isFalse id
  | finite _, infinite true => isFalse id

/-- How two numbers compare: not at all if one of them is NaN. -/
def compare? (v w : Extended) : Option Ordering :=
  if v ≤ w then if w ≤ v then some .eq else some .lt
  else if w ≤ v then some .gt
  else none

@[simp] theorem finite_le (p q : ℚ) : finite p ≤ finite q ↔ p ≤ q := Iff.rfl

@[simp] theorem not_nan_le (v : Extended) : ¬ nan ≤ v := by cases v <;> exact id

@[simp] theorem not_le_nan (v : Extended) : ¬ v ≤ nan := by
  rcases v with _ | (_ | _) | _ <;> exact id

@[simp] theorem le_top (v : Extended) : v ≤ infinite false ↔ v ≠ nan := by
  rcases v with _ | (_ | _) | _
  · exact iff_of_true trivial (by simp)
  · exact iff_of_true trivial (by simp)
  · exact iff_of_true trivial (by simp)
  · simp

@[simp] theorem bot_le (v : Extended) : infinite true ≤ v ↔ v ≠ nan := by
  cases v with
  | finite q => exact iff_of_true trivial (by simp)
  | infinite a => exact iff_of_true trivial (by simp)
  | nan => simp

@[simp] theorem not_top_le_finite (q : ℚ) : ¬ infinite false ≤ finite q := id

@[simp] theorem not_finite_le_bot (q : ℚ) : ¬ finite q ≤ infinite true := id

@[simp] theorem not_top_le_bot : ¬ infinite false ≤ infinite true := id

theorem ne_nan_of_le {v w : Extended} (h : v ≤ w) : v ≠ nan ∧ w ≠ nan := by
  constructor <;> rintro rfl <;> simp at h

/-- The extended real number that is meant; zero for NaN. -/
noncomputable def toEReal : Extended → EReal
  | finite q => ((q : ℝ) : EReal)
  | infinite false => ⊤
  | infinite true => ⊥
  | nan => 0

theorem le_iff_toEReal {v w : Extended} (hv : v ≠ nan) (hw : w ≠ nan) :
    v ≤ w ↔ v.toEReal ≤ w.toEReal := by
  rcases v with p | a | _ <;> rcases w with q | b | _ <;> try contradiction
  · simp [toEReal]
  · cases b <;> simp [toEReal]
  · cases a <;> simp [toEReal]
  · cases a <;> cases b <;> simp [toEReal]

theorem toEReal_inj {v w : Extended} (hv : v ≠ nan) (hw : w ≠ nan) :
    v.toEReal = w.toEReal ↔ v = w := by
  rcases v with p | a | _ <;> rcases w with q | b | _ <;> try contradiction
  · simp [toEReal]
  · cases b <;> simp [toEReal]
  · cases a <;> simp [toEReal]
  · cases a <;> cases b <;> simp [toEReal]

theorem toEReal_add {v w : Extended} (h : v + w ≠ nan) :
    (v + w).toEReal = v.toEReal + w.toEReal := by
  rcases v with p | a | _ <;> rcases w with q | b | _ <;> try (simp at h; done)
  · simp [toEReal]
  · cases b <;> simp [toEReal]
  · cases a <;> simp [toEReal]
  · cases a <;> cases b <;> simp_all [toEReal]

/-- The sign of an infinity times a number other than zero. -/
theorem toEReal_infinite_mul {a : Bool} {q : ℚ} (hq : q ≠ 0) :
    (infinite (a != decide (q < 0))).toEReal = (infinite a).toEReal * (finite q).toEReal := by
  rcases lt_or_gt_of_ne hq with h | h
  · have hr : (q : ℝ) < 0 := by exact_mod_cast h
    cases a <;> simp [toEReal, h, EReal.top_mul_coe_of_neg hr, EReal.bot_mul_coe_of_neg hr]
  · have hr : (0 : ℝ) < q := by exact_mod_cast h
    cases a <;> simp [toEReal, not_lt.2 h.le, EReal.top_mul_coe_of_pos hr, EReal.bot_mul_coe_of_pos hr]

theorem toEReal_mul {v w : Extended} (h : v * w ≠ nan) :
    (v * w).toEReal = v.toEReal * w.toEReal := by
  rcases v with p | a | _ <;> rcases w with q | b | _ <;> try (simp at h; done)
  · simp [toEReal]
  · have hp : p ≠ 0 := by rintro rfl; simp at h
    rw [finite_mul_infinite, if_neg hp, bne_comm, toEReal_infinite_mul hp, mul_comm]
  · have hq : q ≠ 0 := by rintro rfl; simp at h
    rw [infinite_mul_finite, if_neg hq, toEReal_infinite_mul hq]
  · cases a <;> cases b <;> simp [toEReal]

theorem toEReal_neg (v : Extended) : (-v).toEReal = -v.toEReal := by
  rcases v with p | a | _
  · simp [toEReal]
  · cases a <;> simp [toEReal]
  · simp [toEReal]

protected theorem le_refl {v : Extended} (h : v ≠ nan) : v ≤ v :=
  (le_iff_toEReal h h).2 le_rfl

protected theorem le_trans {u v w : Extended} (h₁ : u ≤ v) (h₂ : v ≤ w) : u ≤ w := by
  obtain ⟨hu, hv⟩ := ne_nan_of_le h₁
  obtain ⟨-, hw⟩ := ne_nan_of_le h₂
  rw [le_iff_toEReal hu hv] at h₁
  rw [le_iff_toEReal hv hw] at h₂
  exact (le_iff_toEReal hu hw).2 (h₁.trans h₂)

protected theorem le_total {v w : Extended} (hv : v ≠ nan) (hw : w ≠ nan) : v ≤ w ∨ w ≤ v := by
  rw [le_iff_toEReal hv hw, le_iff_toEReal hw hv]
  exact le_total _ _

protected theorem add_le_add {u v w z : Extended} (h₁ : u ≤ v) (h₂ : w ≤ z) (huw : u + w ≠ nan)
    (hvz : v + z ≠ nan) : u + w ≤ v + z := by
  obtain ⟨hu, hv⟩ := ne_nan_of_le h₁
  obtain ⟨hw, hz⟩ := ne_nan_of_le h₂
  rw [le_iff_toEReal hu hv] at h₁
  rw [le_iff_toEReal hw hz] at h₂
  rw [le_iff_toEReal huw hvz, toEReal_add huw, toEReal_add hvz]
  exact add_le_add h₁ h₂

protected theorem neg_le_neg {v w : Extended} (h : v ≤ w) : -w ≤ -v := by
  obtain ⟨hv, hw⟩ := ne_nan_of_le h
  rw [le_iff_toEReal hv hw] at h
  rw [le_iff_toEReal (neg_ne_nan.2 hw) (neg_ne_nan.2 hv), toEReal_neg, toEReal_neg]
  exact EReal.neg_le_neg_iff.2 h

protected theorem abs_of_nonneg {v : Extended} (h : 0 ≤ v) : v.abs = v := by
  rw [zero_def] at h
  rcases v with q | (_ | _) | _
  · simpa using h
  · rfl
  · simp at h
  · simp at h

protected theorem abs_of_neg {v : Extended} (hn : v ≠ nan) (h : ¬ 0 ≤ v) : v.abs = -v := by
  rw [zero_def] at h
  rcases v with q | (_ | _) | _
  · simp only [finite_le, not_le] at h
    rw [abs_finite, neg_finite, abs_of_neg h]
  · simp at h
  · rfl
  · contradiction

protected theorem abs_nonneg {v : Extended} (h : v ≠ nan) : 0 ≤ v.abs := by
  rw [zero_def]
  cases v <;> simp at h ⊢

/-- A bound on the absolute value is a bound on the number and on its negation. -/
theorem abs_le_iff {v w : Extended} : v.abs ≤ w ↔ v ≤ w ∧ -v ≤ w := by
  rcases v with q | a | _
  · rcases w with p | (_ | _) | _
    · simp [abs_le']
    all_goals simp
  · rcases w with p | (_ | _) | _ <;> cases a <;> simp
  · simp

theorem le_abs {v : Extended} (h : v ≠ nan) : v ≤ v.abs ∧ -v ≤ v.abs :=
  abs_le_iff.1 (Extended.le_refl (abs_ne_nan.2 h))

theorem abs_modulo_le {v w : Extended} (h : v.modulo w ≠ nan) : (v.modulo w).abs ≤ w.abs := by
  cases v with
  | nan => simp at h
  | infinite a => simp at h
  | finite p =>
    cases w with
    | nan => simp at h
    | infinite b => simp
    | finite q =>
      have hq : q ≠ 0 := by
        rintro rfl
        simp at h
      rw [modulo_finite, if_neg hq, abs_finite, abs_finite, finite_le]
      exact (abs_remainder_lt p hq).le

/-! ## Products over intervals -/

theorem mul_le_mul_of_nonpos {x y z : EReal} (h : y ≤ z) (hx : x ≤ 0) : x * z ≤ x * y := by
  have hneg : -x * y ≤ -x * z := mul_le_mul_of_nonneg_left h (EReal.neg_nonneg.2 hx)
  rw [EReal.neg_mul, EReal.neg_mul] at hneg
  exact EReal.neg_le_neg_iff.1 hneg

/-- A product of numbers from two intervals is at most one of the products of their ends. -/
theorem mul_le_corner {a b c d x y : EReal} (hax : a ≤ x) (hxb : x ≤ b) (hcy : c ≤ y)
    (hyd : y ≤ d) : x * y ≤ a * c ∨ x * y ≤ a * d ∨ x * y ≤ b * c ∨ x * y ≤ b * d := by
  rcases le_total 0 y with hy | hy
  · have hx : x * y ≤ b * y := mul_le_mul_of_nonneg_right hxb hy
    rcases le_total 0 b with hb | hb
    · exact .inr (.inr (.inr (hx.trans (mul_le_mul_of_nonneg_left hyd hb))))
    · exact .inr (.inr (.inl (hx.trans (mul_le_mul_of_nonpos hcy hb))))
  · have hx : x * y ≤ a * y := by
      rw [mul_comm x, mul_comm a]
      exact mul_le_mul_of_nonpos hax hy
    rcases le_total 0 a with ha | ha
    · exact .inr (.inl (hx.trans (mul_le_mul_of_nonneg_left hyd ha)))
    · exact .inl (hx.trans (mul_le_mul_of_nonpos hcy ha))

/-- A product of numbers from two intervals is at least one of the products of their ends. -/
theorem corner_le_mul {a b c d x y : EReal} (hax : a ≤ x) (hxb : x ≤ b) (hcy : c ≤ y)
    (hyd : y ≤ d) : a * c ≤ x * y ∨ a * d ≤ x * y ∨ b * c ≤ x * y ∨ b * d ≤ x * y := by
  have h := mul_le_corner (EReal.neg_le_neg_iff.2 hxb) (EReal.neg_le_neg_iff.2 hax) hcy hyd
  simp only [EReal.neg_mul, EReal.neg_le_neg_iff] at h
  tauto

/-- If none of the products of the ends is NaN, then they enclose all products of numbers between
the ends. -/
theorem mul_between_corners {a b c d v w : Extended} (hav : a ≤ v) (hvb : v ≤ b) (hcw : c ≤ w)
    (hwd : w ≤ d) (h : v * w ≠ nan) (hc : ∀ u ∈ [a * c, a * d, b * c, b * d], u ≠ nan) :
    (∃ u ∈ [a * c, a * d, b * c, b * d], u ≤ v * w) ∧
      ∃ u ∈ [a * c, a * d, b * c, b * d], v * w ≤ u := by
  simp only [List.mem_cons, List.not_mem_nil, or_false, forall_eq_or_imp, forall_eq] at hc
  obtain ⟨hac, had, hbc, hbd⟩ := hc
  obtain ⟨ha, hv⟩ := ne_nan_of_le hav
  obtain ⟨-, hb⟩ := ne_nan_of_le hvb
  obtain ⟨hc, hw⟩ := ne_nan_of_le hcw
  obtain ⟨-, hd⟩ := ne_nan_of_le hwd
  rw [le_iff_toEReal ha hv] at hav
  rw [le_iff_toEReal hv hb] at hvb
  rw [le_iff_toEReal hc hw] at hcw
  rw [le_iff_toEReal hw hd] at hwd
  simp only [List.mem_cons, List.not_mem_nil, or_false, exists_eq_or_imp, exists_eq_left,
    le_iff_toEReal hac h, le_iff_toEReal had h, le_iff_toEReal hbc h, le_iff_toEReal hbd h,
    le_iff_toEReal h hac, le_iff_toEReal h had, le_iff_toEReal h hbc, le_iff_toEReal h hbd,
    toEReal_mul h, toEReal_mul hac, toEReal_mul had, toEReal_mul hbc, toEReal_mul hbd]
  exact ⟨corner_le_mul hav hvb hcw hwd, mul_le_corner hav hvb hcw hwd⟩

/-- Reciprocals turn the order around between numbers of one sign. -/
theorem inv_le_inv {v w : Extended} (h : v ≤ w) (hs : ¬ v ≤ 0 ∨ ¬ 0 ≤ w) : w⁻¹ ≤ v⁻¹ := by
  rw [zero_def] at hs
  rcases v with p | (_ | _) | _ <;> rcases w with q | (_ | _) | _
  · simp only [finite_le, not_le] at h hs
    rcases hs with hp | hq
    · have hq : 0 < q := hp.trans_le h
      simpa [hp.ne', hq.ne'] using inv_anti₀ hp h
    · have hp : p < 0 := h.trans_lt hq
      simpa [hp.ne, hq.ne] using (inv_le_inv_of_neg hq hp).2 h
  · have hp : 0 < p := by simpa using hs
    simpa [hp.ne'] using hp.le
  · simp at h
  · simp at h
  · simp at h
  · simp
  · simp at h
  · simp at h
  · have hq : q < 0 := by simpa using hs
    simpa [hq.ne] using hq.le
  · simp at hs
  · simp
  all_goals simp at h

end Extended

end Formula
