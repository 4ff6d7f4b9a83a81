import Formula.Proofs.Laurent.Bounds
import Formula.Proofs.Laurent.Roots
import Mathlib.Algebra.Order.Field.Power
import Mathlib.Analysis.Normed.Field.Lemmas

/-!
# Limits

The points at which a limit is taken are a filter of rational numbers, and a polynomial `TendsTo` a
fraction along it if its values come as close to the fraction as one likes, or pass every bound if the
fraction is an infinity. Large numbers and numbers near zero are treated alike: along a filter that
`Approaches` one of them, either `a` or `a⁻¹` grows beyond all bounds in magnitude. So the term whose
power is extreme in that direction outgrows all others (`Approaches.tendsto_sumAt`), and the limits that
are computed from this term are those of the values (`tendsTo_limits`).
-/

namespace Formula.Laurent

open Filter Topology

/-! ## Limits of the values -/

section TendsTo

variable {p : Laurent Fraction} {F : Filter ℚ} {P : ℚ → Prop} {l : Fraction}

/-- The values at all points far enough along the filter are rational numbers with the property `P`,
whatever the terms of the fractions that the points are given as. -/
def Eventually (p : Laurent Fraction) (F : Filter ℚ) (P : ℚ → Prop) : Prop :=
  ∀ᶠ a in F, ∀ x : Fraction, x.IsRational → x.toRat = a →
    (p.eval x).IsRational ∧ P (p.eval x).toRat

/-- The values come within any distance of `l` along the filter, or pass every bound on the side of
`l` if it is infinite. -/
def TendsTo (p : Laurent Fraction) (F : Filter ℚ) (l : Fraction) : Prop :=
  l.WellFormed ∧
    match l.value with
    | .finite q => ∀ ε > 0, p.Eventually F fun v => |v - q| < ε
    | .infinite negative => ∀ b, p.Eventually F fun v => if negative then v < b else b < v
    | .nan => False

/-- The numbers beyond every bound, to the side of the sign. -/
def beyond (negative : Bool) : Filter ℚ :=
  if negative then atBot else atTop

theorem eventually_of_sumAt (hp : ∀ t ∈ p.terms, t.2.IsRational) (hne : ∀ᶠ a in F, a ≠ 0)
    (h : ∀ᶠ a in F, P (sumAt a p.terms)) : p.Eventually F P := by
  filter_upwards [hne, h] with a ha hP x hx rfl
  obtain ⟨hrat, hvalue⟩ := eval_of_sums hx (sums_sumAt hp fun _ _ _ => ha)
  rw [hvalue]
  exact ⟨hrat, hP⟩

theorem tendsTo_of_tendsto_nhds (hp : ∀ t ∈ p.terms, t.2.IsRational) (hne : ∀ᶠ a in F, a ≠ 0)
    (hl : l.IsRational) (h : Tendsto (fun a => sumAt a p.terms) F (𝓝 l.toRat)) :
    p.TendsTo F l := by
  refine ⟨hl.1, ?_⟩
  rw [hl.value_eq]
  intro ε hε
  exact eventually_of_sumAt hp hne (LinearOrderedAddCommGroup.tendsto_nhds.1 h ε hε)

theorem tendsTo_of_tendsto_beyond {s : Bool} (hp : ∀ t ∈ p.terms, t.2.IsRational)
    (hne : ∀ᶠ a in F, a ≠ 0) (h : Tendsto (fun a => sumAt a p.terms) F (beyond s)) :
    p.TendsTo F (.infinite s) := by
  refine ⟨trivial, fun b => eventually_of_sumAt hp hne ?_⟩
  cases s with
  | true => exact h.eventually_lt_atBot b
  | false => exact h.eventually_gt_atTop b

/-- A product grows beyond all bounds if one factor does and the other tends to a number other than
zero. -/
theorem tendsto_mul_beyond {f g : ℚ → ℚ} {c : ℚ} {s : Bool} (hc : c ≠ 0) (hf : Tendsto f F (𝓝 c))
    (hg : Tendsto g F (beyond s)) :
    Tendsto (fun a => f a * g a) F (beyond (decide (c < 0) != s)) := by
  rcases hc.lt_or_gt with hneg | hpos
  · rw [decide_eq_true hneg]
    cases s with
    | true => exact hf.neg_mul_atBot hneg hg
    | false => exact hf.neg_mul_atTop hneg hg
  · rw [decide_eq_false hpos.not_gt]
    cases s with
    | true => exact hf.pos_mul_atBot hpos hg
    | false => exact hf.pos_mul_atTop hpos hg

end TendsTo

/-! ## Directions -/

/-- All points far enough along are different from zero and have one sign, negative if `fromBelow`, and
the power `e` of their magnitude grows beyond all bounds. The power is `1` for points that grow
themselves, and `-1` for points that come close to zero. -/
structure Approaches (F : Filter ℚ) (e : ℤ) (fromBelow : Bool) : Prop where
  unit : e * e = 1
  sign : ∀ᶠ a in F, a ≠ 0 ∧ decide (a < 0) = fromBelow
  grows : Tendsto (fun a => |a| ^ e) F atTop

theorem approaches_atTop : Approaches atTop 1 false := by
  refine ⟨rfl, ?_, ?_⟩
  · filter_upwards [eventually_gt_atTop 0] with a ha
    exact ⟨ha.ne', decide_eq_false ha.not_gt⟩
  · simpa only [zpow_one] using tendsto_abs_atTop_atTop

theorem approaches_atBot : Approaches atBot 1 true := by
  refine ⟨rfl, ?_, ?_⟩
  · filter_upwards [eventually_lt_atBot 0] with a ha
    exact ⟨ha.ne, decide_eq_true ha⟩
  · simpa only [zpow_one] using tendsto_abs_atBot_atTop

theorem approaches_zero_from_above : Approaches (𝓝[>] 0) (-1) false := by
  refine ⟨rfl, ?_, ?_⟩
  · filter_upwards [self_mem_nhdsWithin] with a ha
    exact ⟨ha.ne', decide_eq_false ha.not_gt⟩
  · simpa only [zpow_neg_one, ← abs_inv, Function.comp_def] using
      tendsto_abs_atTop_atTop.comp (tendsto_inv_nhdsGT_zero (𝕜 := ℚ))

theorem approaches_zero_from_below : Approaches (𝓝[<] 0) (-1) true := by
  refine ⟨rfl, ?_, ?_⟩
  · filter_upwards [self_mem_nhdsWithin] with a ha
    exact ⟨ha.ne, decide_eq_true ha⟩
  · simpa only [zpow_neg_one, ← abs_inv, Function.comp_def] using
      tendsto_abs_atBot_atTop.comp (tendsto_inv_nhdsLT_zero (𝕜 := ℚ))

namespace Approaches

variable {F : Filter ℚ} {e n k : ℤ} {fromBelow : Bool}

theorem eventually_ne (h : Approaches F e fromBelow) : ∀ᶠ a in F, a ≠ 0 :=
  h.sign.mono fun _ ha => ha.1

theorem zpow_abs_eq (h : Approaches F e fromBelow) (a : ℚ) (k : ℤ) :
    |a| ^ k = (|a| ^ e) ^ (e * k) := by
  rw [← zpow_mul, ← mul_assoc, h.unit, one_mul]

/-- Powers in the one direction vanish. -/
theorem tendsto_zpow_zero (h : Approaches F e fromBelow) (hk : e * k < 0) :
    Tendsto (fun a => a ^ k) F (𝓝 0) := by
  rw [tendsto_zero_iff_abs_tendsto_zero]
  refine ((tendsto_zpow_atTop_zero hk).comp h.grows).congr fun a => ?_
  rw [Function.comp_apply, Function.comp_apply, abs_zpow, ← h.zpow_abs_eq]

/-- Powers in the other direction grow beyond all bounds, the odd ones to the side of the points. -/
theorem tendsto_zpow_beyond (h : Approaches F e fromBelow) (hk : 0 < e * k) :
    Tendsto (fun a => a ^ k) F (beyond (fromBelow && k % 2 != 0)) := by
  have habs : Tendsto (fun a => |a| ^ k) F atTop := by
    refine ((tendsto_zpow_atTop_atTop hk).comp h.grows).congr fun a => ?_
    exact (h.zpow_abs_eq a k).symm
  cases fromBelow with
  | false =>
    refine habs.congr' ?_
    filter_upwards [h.sign] with a ha
    rw [abs_of_nonneg (not_lt.1 (of_decide_eq_false ha.2))]
  | true =>
    rcases Int.even_or_odd k with heven | hodd
    · have hparity : (k % 2 != 0) = false := by simp [Int.even_iff.1 heven]
      rw [hparity]
      exact habs.congr heven.zpow_abs
    · have hparity : (k % 2 != 0) = true := by simp [Int.odd_iff.1 hodd]
      rw [hparity]
      refine (tendsto_neg_atTop_atBot.comp habs).congr' ?_
      filter_upwards [h.sign] with a ha
      rw [Function.comp_apply, abs_of_neg (of_decide_eq_true ha.2), hodd.neg_zpow, neg_neg]

/-- Relative to the power `n`, which no other exceeds, only the term of this power is left of a sum. -/
theorem tendsto_sumAt (h : Approaches F e fromBelow) {ts : List (ℤ × Fraction)}
    (hle : ∀ t ∈ ts, e * t.1 ≤ e * n) :
    Tendsto (fun a => sumAt a ts * a ^ (-n)) F (𝓝 ((termSum ts).coeff n)) := by
  induction ts with
  | nil => simpa [sumAt] using tendsto_const_nhds
  | cons t ts ih =>
    rw [List.forall_mem_cons] at hle
    have hterm : Tendsto (fun a => t.2.toRat * a ^ (t.1 - n)) F
        (𝓝 (if t.1 = n then t.2.toRat else 0)) := by
      split_ifs with heq
      · simpa [heq] using tendsto_const_nhds
      · have hlt : e * (t.1 - n) < 0 := by
          have he : e ≠ 0 := left_ne_zero_of_mul_eq_one h.unit
          rw [mul_sub, sub_neg]
          exact hle.1.lt_of_ne fun hn => heq (mul_left_cancel₀ he hn)
        simpa only [mul_zero] using (h.tendsto_zpow_zero hlt).const_mul t.2.toRat
    rw [coeff_termSum]
    refine (hterm.add (ih hle.2)).congr' ?_
    filter_upwards [h.eventually_ne] with a ha
    rw [sumAt_cons, add_mul, sub_eq_add_neg, zpow_add₀ ha, mul_assoc]

end Approaches

/-! ## The limits that are computed -/

variable {p : Laurent Fraction} {F : Filter ℚ} {e : ℤ} {fromBelow : Bool} {l : ℤ × Fraction}

/-- If no power grows, the values tend to the constant term. -/
theorem tendsTo_constantTerm (hp : p.Reduced) (h : Approaches F e fromBelow)
    (hle : ∀ t ∈ p.terms, e * t.1 ≤ 0) : p.TendsTo F p.constantTerm := by
  have hrat : p.constantTerm.IsRational :=
    forall_coefficient Fraction.isRational_zero.1 hp.ordered.rational 0
  refine tendsTo_of_tendsto_nhds hp.ordered.rational h.eventually_ne hrat ?_
  have hsum := h.tendsto_sumAt (n := 0) (by simpa only [mul_zero] using hle)
  simp only [neg_zero, zpow_zero, mul_one] at hsum
  rwa [← toRing, coeff_toRing hp.ordered] at hsum

/-- If a power grows, the term that grows the most decides on the sign of the limit. -/
theorem tendsTo_infinite (hp : p.Reduced) (h : Approaches F e fromBelow) (hl : l ∈ p.terms)
    (hle : ∀ t ∈ p.terms, e * t.1 ≤ e * l.1) (hpos : 0 < e * l.1) :
    p.TendsTo F (.infinite (l.2.isNegative != (fromBelow && l.1 % 2 != 0))) := by
  have hcoeff : p.toRing.coeff l.1 = l.2.toRat := by
    rw [coeff_toRing hp.ordered, coefficient_of_mem hp.ordered.ascending hl]
  have hsum := h.tendsto_sumAt hle
  rw [← toRing, hcoeff] at hsum
  rw [(hp.ordered.rational l hl).isNegative_eq]
  refine tendsTo_of_tendsto_beyond hp.ordered.rational h.eventually_ne ?_
  refine (tendsto_mul_beyond (hp.toRat_ne_zero hl) hsum (h.tendsto_zpow_beyond hpos)).congr' ?_
  filter_upwards [h.eventually_ne] with a ha
  rw [mul_assoc, ← zpow_add₀ ha, neg_add_cancel, zpow_zero, mul_one]

theorem tendsTo_limitAtInfinity (hp : p.Reduced) (h : Approaches F 1 fromBelow) :
    p.TendsTo F (p.limitAtInfinity fromBelow) := by
  by_cases hne : p.terms = []
  · have hlarge : p.largestPower = 0 := by simp [largestPower, hne]
    rw [limitAtInfinity, if_neg (by omega)]
    exact tendsTo_constantTerm hp h (by simp [hne])
  obtain ⟨l, hl, hlarge, hlead⟩ := exists_leading_term hp.ordered.ascending hne
  rw [limitAtInfinity, leadingCoefficient, hlarge, coefficient_of_mem hp.ordered.ascending hl,
    signedInfinity_fraction]
  split_ifs with hpos
  · exact tendsTo_infinite hp h hl (by simpa only [one_mul] using hlead) (by omega)
  · refine tendsTo_constantTerm hp h fun t ht => ?_
    have := hlead t ht
    omega

theorem tendsTo_limitAtZero (hp : p.Reduced) (h : Approaches F (-1) fromBelow) :
    p.TendsTo F (p.limitAtZero fromBelow) := by
  by_cases hne : p.terms = []
  · have hsmall : p.smallestPower = 0 := by simp [smallestPower, hne]
    rw [limitAtZero, if_neg (by omega)]
    exact tendsTo_constantTerm hp h (by simp [hne])
  obtain ⟨s, hs, hsmall, hlow⟩ := exists_lowest_term hp.ordered.ascending hne
  rw [limitAtZero, hsmall, coefficient_of_mem hp.ordered.ascending hs, signedInfinity_fraction]
  split_ifs with hneg
  · refine tendsTo_infinite hp h hs (fun t ht => ?_) (by omega)
    have := hlow t ht
    omega
  · refine tendsTo_constantTerm hp h fun t ht => ?_
    have := hlow t ht
    omega

/-- The limits of a polynomial are those of its values, for rational numbers that grow beyond all bounds,
that fall below all bounds, and that tend to zero from above and from below. -/
theorem tendsTo_limits (hp : p.Reduced) :
    p.TendsTo atTop (p.limitAtInfinity false) ∧ p.TendsTo atBot (p.limitAtInfinity true) ∧
      p.TendsTo (𝓝[>] 0) (p.limitAtZero false) ∧ p.TendsTo (𝓝[<] 0) (p.limitAtZero true) :=
  ⟨tendsTo_limitAtInfinity hp approaches_atTop, tendsTo_limitAtInfinity hp approaches_atBot,
    tendsTo_limitAtZero hp approaches_zero_from_above,
    tendsTo_limitAtZero hp approaches_zero_from_below⟩

/-- The polynomial `-5 x^2 + 3 - 2/4 x^-3` falls below all bounds on both sides and near zero from above,
and grows beyond all bounds near zero from below. Without its leading term it tends to `3`. -/
theorem tendsTo_limits_of_odd_pole :
    let p : Laurent Fraction :=
      ⟨[(-3, .finite true 2 4), (0, .finite false 3 1), (2, .finite true 5 1)]⟩
    let q : Laurent Fraction := ⟨[(-3, .finite true 2 4), (0, .finite false 3 1)]⟩
    (p.TendsTo atTop (.infinite true) ∧ p.TendsTo atBot (.infinite true) ∧
      p.TendsTo (𝓝[>] 0) (.infinite true) ∧ p.TendsTo (𝓝[<] 0) (.infinite false)) ∧
      q.TendsTo atTop (.finite false 3 1) ∧ q.TendsTo atBot (.finite false 3 1) := by
  intro p q
  have hp : p.Reduced := ⟨⟨by decide, by decide⟩, by decide⟩
  have hq : q.Reduced := ⟨⟨by decide, by decide⟩, by decide⟩
  exact ⟨tendsTo_limits hp, (tendsTo_limits hq).1, (tendsTo_limits hq).2.1⟩

end Formula.Laurent
