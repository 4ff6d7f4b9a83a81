import Formula.Laurent.Roots
import Formula.Proofs.Divisors
import Formula.Proofs.Laurent.Evaluation
import Formula.Proofs.Laurent.Laws
import Mathlib.RingTheory.Localization.Rat
import Mathlib.RingTheory.Polynomial.RationalRoot

/-!
# Rational roots are among the candidates

Multiplied by the least common multiple of the denominators and by a power of the variable, a
polynomial becomes one with integer coefficients, `clearedPolynomial`, and its roots other than zero
stay. By the rational root theorem the lowest terms of such a root divide the outer coefficients, so
that it is among the quotients listed (`exists_candidate_iff`). Zero is a root if and only if all powers
are positive.
-/

namespace Formula.Laurent

open Polynomial (aeval)

variable {p : Laurent Fraction} {t s l : ℤ × Fraction} {f g : Fraction} {q : ℚ}
  {found fs : List Fraction}

/-! ## Outer terms -/

theorem exists_lowest_term (h : p.terms.Pairwise fun t u => t.1 < u.1) (hne : p.terms ≠ []) :
    ∃ s ∈ p.terms, p.smallestPower = s.1 ∧ ∀ u ∈ p.terms, s.1 ≤ u.1 := by
  obtain ⟨ts⟩ := p
  obtain ⟨s, us, rfl⟩ := List.exists_cons_of_ne_nil hne
  obtain ⟨hlt, -⟩ := List.pairwise_cons.1 h
  refine ⟨s, List.mem_cons_self, rfl, ?_⟩
  exact List.forall_mem_cons.2 ⟨le_rfl, fun u hu => (hlt u hu).le⟩

theorem exists_leading_term (h : p.terms.Pairwise fun t u => t.1 < u.1) (hne : p.terms ≠ []) :
    ∃ l ∈ p.terms, p.largestPower = l.1 ∧ ∀ u ∈ p.terms, u.1 ≤ l.1 := by
  refine ⟨p.terms.getLast hne, List.getLast_mem hne, ?_, ?_⟩
  · rw [largestPower, List.getLast?_eq_some_getLast hne]
    rfl
  · rw [← List.dropLast_append_getLast hne] at h
    intro u hu
    rw [← List.dropLast_append_getLast hne] at hu
    rcases List.mem_append.1 hu with hu | hu
    · exact ((List.pairwise_append.1 h).2.2 u hu _ (List.mem_singleton_self _)).le
    · rw [List.mem_singleton.1 hu]

/-! ## Clearing denominators -/

/-- The least common multiple of the denominators of the coefficients in lowest terms. -/
def denominatorLcm (p : Laurent Fraction) : ℕ :=
  (p.terms.map fun t => t.2.toRat.den).foldl Nat.lcm 1

theorem dvd_foldl_lcm (ns : List ℕ) (k : ℕ) :
    k ∣ ns.foldl Nat.lcm k ∧ ∀ n ∈ ns, n ∣ ns.foldl Nat.lcm k := by
  induction ns generalizing k with
  | nil => simp
  | cons n ns ih =>
    obtain ⟨hstart, hall⟩ := ih (k.lcm n)
    refine ⟨(Nat.dvd_lcm_left k n).trans hstart, ?_⟩
    exact List.forall_mem_cons.2 ⟨(Nat.dvd_lcm_right k n).trans hstart, hall⟩

theorem den_dvd_denominatorLcm (ht : t ∈ p.terms) : t.2.toRat.den ∣ p.denominatorLcm :=
  (dvd_foldl_lcm _ 1).2 _ (List.mem_map_of_mem ht)

theorem commonDenominator_eq (h : Ordered p.terms) : p.commonDenominator = p.denominatorLcm := by
  have hden : p.terms.filterMap (fun t => t.2.simplified.denominator?) =
      p.terms.map fun t => t.2.toRat.den := by
    rw [← List.filterMap_eq_map]
    exact List.filterMap_congr fun t ht => Fraction.denominator?_simplified (h.rational t ht)
  rw [commonDenominator, denominatorLcm, ← hden]

theorem denominatorLcm_ne_zero (p : Laurent Fraction) : p.denominatorLcm ≠ 0 := by
  unfold denominatorLcm
  refine List.foldlRecOn (motive := (· ≠ 0)) _ _ one_ne_zero ?_
  intro k hk n hn
  obtain ⟨t, -, rfl⟩ := List.mem_map.1 hn
  exact Nat.lcm_ne_zero hk t.2.toRat.den_ne_zero

/-- The coefficient of a term as an integer, once the denominators are cleared. -/
def cleared (p : Laurent Fraction) (t : ℤ × Fraction) : ℤ :=
  (t.2.toRat * p.denominatorLcm).num

theorem cleared_eq (ht : t ∈ p.terms) : (p.cleared t : ℚ) = t.2.toRat * p.denominatorLcm := by
  obtain ⟨k, hk⟩ := den_dvd_denominatorLcm ht
  have hwhole : t.2.toRat * p.denominatorLcm = (t.2.toRat.num * k : ℤ) := by
    rw [hk]
    push_cast
    rw [← mul_assoc, Rat.mul_den_eq_num]
  rw [cleared, hwhole, Rat.num_intCast]

theorem cleared_ne_zero (hp : p.Reduced) (ht : t ∈ p.terms) : p.cleared t ≠ 0 := by
  have hlcm : (p.denominatorLcm : ℚ) ≠ 0 := by exact_mod_cast p.denominatorLcm_ne_zero
  have hcast : (p.cleared t : ℚ) ≠ 0 := by
    rw [cleared_eq ht]
    exact mul_ne_zero (hp.toRat_ne_zero ht) hlcm
  exact_mod_cast hcast

theorem clearedCoefficient?_eq (h : Ordered p.terms) (ht : t ∈ p.terms) :
    p.clearedCoefficient? t.1 = some (p.cleared t) := by
  have hlcm : (Fraction.ofParts false p.denominatorLcm 1).IsRational ∧
      (Fraction.ofParts false p.denominatorLcm 1).toRat = p.denominatorLcm := by
    apply Fraction.isRational_of_value (Fraction.wellFormed_ofParts _ _ _)
    rw [Fraction.value_ofParts _ _ one_ne_zero, Nat.cast_one, div_one]
    rfl
  obtain ⟨hrat, hvalue⟩ := (h.rational t ht).mul hlcm.1
  rw [clearedCoefficient?, commonDenominator_eq h, coefficient_of_mem h.ascending ht,
    Fraction.signedNumerator?_simplified hrat, hvalue, hlcm.2, cleared]

/-! ## The polynomial with integer coefficients -/

/-- The polynomial without denominators and with the lowest power zero. -/
noncomputable def clearedPolynomial (p : Laurent Fraction) : Polynomial ℤ :=
  (p.terms.map fun t => Polynomial.monomial (t.1 - p.smallestPower).toNat (p.cleared t)).sum

/-- A root other than zero is a root of the polynomial with integer coefficients. -/
theorem aeval_clearedPolynomial (hlow : ∀ t ∈ p.terms, p.smallestPower ≤ t.1) (hq : q ≠ 0)
    (hroot : sumAt q p.terms = 0) : aeval q p.clearedPolynomial = 0 := by
  have hterm : ∀ t ∈ p.terms,
      aeval q (Polynomial.monomial (t.1 - p.smallestPower).toNat (p.cleared t)) =
        p.denominatorLcm * q ^ (-p.smallestPower) * (t.2.toRat * q ^ t.1) := by
    intro t ht
    have hnat : ((t.1 - p.smallestPower).toNat : ℤ) = t.1 + -p.smallestPower := by
      have := hlow t ht
      omega
    rw [Polynomial.aeval_monomial, eq_intCast, cleared_eq ht, ← zpow_natCast, hnat, zpow_add₀ hq]
    ring
  rw [clearedPolynomial, map_list_sum, List.map_map]
  have hsum := congrArg List.sum (List.map_congr_left hterm)
  rw [List.sum_map_mul_left] at hsum
  refine hsum.trans ?_
  rw [← sumAt, hroot, mul_zero]

theorem coeff_clearedPolynomial (h : p.terms.Pairwise fun t u => t.1 < u.1)
    (hlow : ∀ t ∈ p.terms, p.smallestPower ≤ t.1) (ht : t ∈ p.terms) :
    p.clearedPolynomial.coeff (t.1 - p.smallestPower).toNat = p.cleared t := by
  obtain ⟨as, bs, hsplit⟩ := List.append_of_mem ht
  rw [hsplit] at h hlow
  obtain ⟨-, hbs, has⟩ := List.pairwise_append.1 h
  rw [List.pairwise_cons] at hbs
  have hlt := hlow t (List.mem_append_right as List.mem_cons_self)
  have hother {us : List (ℤ × Fraction)} (hus : ∀ u ∈ us, p.smallestPower ≤ u.1 ∧ u.1 ≠ t.1) :
      (us.map fun u => (Polynomial.monomial (u.1 - p.smallestPower).toNat (p.cleared u)).coeff
        (t.1 - p.smallestPower).toNat).sum = 0 := by
    refine List.sum_eq_zero ?_
    rw [List.forall_mem_map]
    intro u hu
    have := hus u hu
    rw [Polynomial.coeff_monomial, if_neg (by omega)]
  rw [clearedPolynomial, Polynomial.coeff_list_sum_map, hsplit, List.map_append, List.sum_append,
    List.map_cons, List.sum_cons, Polynomial.coeff_monomial, if_pos rfl, hother, hother, add_zero,
    zero_add]
  · exact fun u hu => ⟨hlow u (List.mem_append_right as (List.mem_cons_of_mem t hu)),
      (hbs.1 u hu).ne'⟩
  · exact fun u hu => ⟨hlow u (List.mem_append_left _ hu), (has u hu t List.mem_cons_self).ne⟩

theorem leadingCoeff_clearedPolynomial (hp : p.Reduced)
    (hlow : ∀ t ∈ p.terms, p.smallestPower ≤ t.1) (hl : l ∈ p.terms)
    (hlead : ∀ t ∈ p.terms, t.1 ≤ l.1) : p.clearedPolynomial.leadingCoeff = p.cleared l := by
  have hcoeff := coeff_clearedPolynomial hp.ordered.ascending hlow hl
  have hdegree : p.clearedPolynomial.natDegree ≤ (l.1 - p.smallestPower).toNat := by
    rw [Polynomial.natDegree_le_iff_coeff_eq_zero]
    intro n hn
    rw [clearedPolynomial, Polynomial.coeff_list_sum_map]
    refine List.sum_eq_zero ?_
    rw [List.forall_mem_map]
    intro t ht
    have := hlead t ht
    rw [Polynomial.coeff_monomial, if_neg (by omega)]
  have hnatDegree := Polynomial.natDegree_eq_of_le_of_coeff_ne_zero hdegree
    (hcoeff ▸ cleared_ne_zero hp hl)
  rw [Polynomial.leadingCoeff, hnatDegree, hcoeff]

/-- The lowest terms of a root other than zero divide the outer coefficients. -/
theorem num_dvd_and_den_dvd_of_root (hp : p.Reduced) (hs : s ∈ p.terms)
    (hsmall : p.smallestPower = s.1) (hlow : ∀ t ∈ p.terms, s.1 ≤ t.1) (hl : l ∈ p.terms)
    (hlead : ∀ t ∈ p.terms, t.1 ≤ l.1) (hq : q ≠ 0) (hroot : sumAt q p.terms = 0) :
    q.num ∣ p.cleared s ∧ (q.den : ℤ) ∣ p.cleared l := by
  rw [← hsmall] at hlow
  have haeval := aeval_clearedPolynomial hlow hq hroot
  obtain ⟨hnum, hden⟩ := q.associated_num_den
  constructor
  · have hcoeff := coeff_clearedPolynomial hp.ordered.ascending hlow hs
    rw [hsmall, sub_self, Int.toNat_zero] at hcoeff
    rw [← hcoeff]
    exact hnum.dvd_iff_dvd_left.1 (num_dvd_of_is_root haeval)
  · rw [← leadingCoeff_clearedPolynomial hp hlow hl hlead]
    exact hden.dvd_iff_dvd_left.1 (den_dvd_of_is_root haeval)

/-! ## Lists without repetition -/

/-- The fractions of `fs` added to those found, each unless an equal one is there. -/
def pushAll (found fs : List Fraction) : List Fraction :=
  fs.foldl pushNew found

theorem mem_pushNew (h : g ∈ pushNew found f) : g ∈ found ∨ g = f := by
  unfold pushNew at h
  split_ifs at h
  · exact .inl h
  · simpa using h

theorem forall_mem_pushAll {P : Fraction → Prop} (hfound : ∀ f ∈ found, P f)
    (hfs : ∀ f ∈ fs, P f) : ∀ f ∈ pushAll found fs, P f := by
  refine List.foldlRecOn (motive := fun acc : List Fraction => ∀ f ∈ acc, P f) fs _ hfound ?_
  intro acc hacc f hf g hg
  rcases mem_pushNew hg with hg | rfl
  · exact hacc g hg
  · exact hfs g hf

theorem distinct_pushNew (h : found.Pairwise fun f g => (f == g) = false) :
    (pushNew found f).Pairwise fun f g => (f == g) = false := by
  unfold pushNew
  split_ifs with hany
  · exact h
  · refine List.pairwise_append.2 ⟨h, List.pairwise_singleton _ _, ?_⟩
    intro g hg
    refine List.forall_mem_singleton.2 ?_
    simpa using fun heq => hany (List.any_eq_true.2 ⟨g, hg, heq⟩)

theorem distinct_pushAll (h : found.Pairwise fun f g => (f == g) = false) :
    (pushAll found fs).Pairwise fun f g => (f == g) = false :=
  List.foldlRecOn fs _ h fun _ hacc _ _ => distinct_pushNew hacc

theorem exists_mem_pushNew (hfound : ∀ f ∈ found, f.IsRational) (hf : f.IsRational) :
    (∃ g ∈ pushNew found f, g.toRat = q) ↔ (∃ g ∈ found, g.toRat = q) ∨ f.toRat = q := by
  unfold pushNew
  split_ifs with hany
  · obtain ⟨g, hg, heq⟩ := List.any_eq_true.1 hany
    rw [(hfound g hg).beq_iff hf] at heq
    exact ⟨.inl, fun h => h.elim id fun hq => ⟨g, hg, heq.trans hq⟩⟩
  · simp [List.mem_append, or_and_right, exists_or]

/-- What is left out has an equal that is not. -/
theorem exists_mem_pushAll (hfound : ∀ f ∈ found, f.IsRational) (hfs : ∀ f ∈ fs, f.IsRational) :
    (∃ g ∈ pushAll found fs, g.toRat = q) ↔
      (∃ g ∈ found, g.toRat = q) ∨ ∃ g ∈ fs, g.toRat = q := by
  induction fs generalizing found with
  | nil => simp [pushAll]
  | cons f fs ih =>
    rw [List.forall_mem_cons] at hfs
    have hnext : ∀ g ∈ pushNew found f, g.IsRational := by
      intro g hg
      rcases mem_pushNew hg with hg | rfl
      · exact hfound g hg
      · exact hfs.1
    show (∃ g ∈ pushAll (pushNew found f) fs, g.toRat = q) ↔ _
    rw [ih hnext hfs.2, exists_mem_pushNew hfound hfs.1, or_assoc]
    simp only [List.mem_cons, exists_eq_or_imp]

/-! ## Candidates -/

/-- The quotients of the divisors of `m` by those of `n`, with either sign. -/
def quotients (m n : ℕ) : List Fraction :=
  (divisorList m).flatMap fun a => (divisorList n).flatMap fun b =>
    [(Fraction.ofParts false a b).simplified, -(Fraction.ofParts false a b).simplified]

theorem isRational_quotient (a : ℕ) {b : ℕ} (hb : b ≠ 0) :
    (Fraction.ofParts false a b).simplified.IsRational ∧
      (Fraction.ofParts false a b).simplified.toRat = a / b := by
  have hwf := Fraction.wellFormed_ofParts false a b
  apply Fraction.isRational_of_value (Fraction.wellFormed_simplified hwf)
  rw [Fraction.value_simplified hwf, Fraction.value_ofParts _ _ hb]
  rfl

theorem mem_quotients {m n : ℕ} (hm : m ≠ 0) (hn : n ≠ 0) :
    f ∈ quotients m n ↔ ∃ a b : ℕ, a ∣ m ∧ b ∣ n ∧ (f = (Fraction.ofParts false a b).simplified ∨
      f = -(Fraction.ofParts false a b).simplified) := by
  simp only [quotients, List.mem_flatMap, mem_divisorList hm, mem_divisorList hn, List.mem_cons,
    List.not_mem_nil, or_false]
  exact exists_congr fun a => by simp only [exists_and_left]

theorem isRational_of_mem_quotients {m n : ℕ} (hm : m ≠ 0) (hn : n ≠ 0) :
    ∀ f ∈ quotients m n, f.IsRational := by
  intro f hf
  obtain ⟨a, b, -, hb, hfab⟩ := (mem_quotients hm hn).1 hf
  have hquot := (isRational_quotient a (ne_zero_of_dvd_ne_zero hn hb)).1
  rcases hfab with rfl | rfl
  · exact hquot
  · exact hquot.neg.1

theorem exists_mem_quotients {m n : ℕ} (hm : m ≠ 0) (hn : n ≠ 0) :
    (∃ f ∈ quotients m n, f.toRat = q) ↔
      ∃ a b : ℕ, a ∣ m ∧ b ∣ n ∧ (q = a / b ∨ q = -(a / b)) := by
  constructor
  · rintro ⟨f, hf, rfl⟩
    obtain ⟨a, b, ha, hb, hfab⟩ := (mem_quotients hm hn).1 hf
    obtain ⟨hquot, hvalue⟩ := isRational_quotient a (ne_zero_of_dvd_ne_zero hn hb)
    refine ⟨a, b, ha, hb, ?_⟩
    rcases hfab with rfl | rfl
    · exact .inl hvalue
    · exact .inr (hquot.neg.2.trans (congrArg _ hvalue))
  · rintro ⟨a, b, ha, hb, hq⟩
    obtain ⟨hquot, hvalue⟩ := isRational_quotient a (ne_zero_of_dvd_ne_zero hn hb)
    rcases hq with rfl | rfl
    · exact ⟨_, (mem_quotients hm hn).2 ⟨a, b, ha, hb, .inl rfl⟩, hvalue⟩
    · exact ⟨_, (mem_quotients hm hn).2 ⟨a, b, ha, hb, .inr rfl⟩,
        hquot.neg.2.trans (congrArg _ hvalue)⟩

/-- Zero stands first among the candidates if all powers are positive. -/
def zeroCandidates (p : Laurent Fraction) : List Fraction :=
  if 0 < p.smallestPower then [.zero] else []

theorem candidateRoots_eq (h : Ordered p.terms) (hs : s ∈ p.terms) (hsmall : p.smallestPower = s.1)
    (hl : l ∈ p.terms) (hlarge : p.largestPower = l.1) :
    p.candidateRoots =
      pushAll p.zeroCandidates (quotients (p.cleared s).natAbs (p.cleared l).natAbs) := by
  have hzero : ¬ p.isZero = true := fun hnil => by
    rw [List.isEmpty_iff.1 hnil] at hs
    cases hs
  rw [candidateRoots, if_neg hzero, hsmall, hlarge, clearedCoefficient?_eq h hs,
    clearedCoefficient?_eq h hl, pushAll, quotients, List.foldl_flatMap]
  simp only [List.foldl_flatMap, zeroCandidates, hsmall]
  rfl

theorem isRational_of_mem_zeroCandidates (p : Laurent Fraction) :
    ∀ f ∈ p.zeroCandidates, f.IsRational := by
  unfold zeroCandidates
  split_ifs
  · exact List.forall_mem_singleton.2 Fraction.isRational_zero.1
  · simp

theorem exists_mem_zeroCandidates :
    (∃ f ∈ p.zeroCandidates, f.toRat = q) ↔ 0 < p.smallestPower ∧ q = 0 := by
  unfold zeroCandidates
  split_ifs with hpos
  · simp [hpos, Fraction.isRational_zero.2, eq_comm]
  · simp [hpos]

/-- The numbers that the candidates stand for. -/
theorem exists_candidate_iff (hp : p.Reduced) (hs : s ∈ p.terms) (hsmall : p.smallestPower = s.1)
    (hl : l ∈ p.terms) (hlarge : p.largestPower = l.1) :
    (∃ f ∈ p.candidateRoots, f.toRat = q) ↔ (0 < p.smallestPower ∧ q = 0) ∨
      ∃ a b : ℕ, a ∣ (p.cleared s).natAbs ∧ b ∣ (p.cleared l).natAbs ∧
        (q = a / b ∨ q = -(a / b)) := by
  have hm : (p.cleared s).natAbs ≠ 0 := Int.natAbs_ne_zero.2 (cleared_ne_zero hp hs)
  have hn : (p.cleared l).natAbs ≠ 0 := Int.natAbs_ne_zero.2 (cleared_ne_zero hp hl)
  rw [candidateRoots_eq hp.ordered hs hsmall hl hlarge, exists_mem_pushAll
    (isRational_of_mem_zeroCandidates p) (isRational_of_mem_quotients hm hn),
    exists_mem_zeroCandidates, exists_mem_quotients hm hn]

/-! ## Roots -/

theorem Sums.unique {v : Extended} {ts : List (ℤ × Fraction)} {a b : ℚ} (ha : Sums v ts a)
    (hb : Sums v ts b) : a = b := by
  have h := (sums_iff (p := ⟨ts⟩)).1 ha
  rw [(sums_iff.1 hb).2, Extended.finite.injEq] at h
  exact h.2.symm

theorem sums_of_root {r : Fraction} (hp : p.Reduced) (hr : r.IsRational)
    (hroot : (p.eval r == Fraction.zero) = true) : Sums (.finite r.toRat) p.terms 0 := by
  have hwf : p.WellFormed := fun t ht => (hp.ordered.rational t ht).1
  have hvalue := (Fraction.isZero_iff (wellFormed_eval p r)).1 hroot
  rw [value_eval hwf hr.1, hr.value_eq] at hvalue
  exact sums_iff.2 ⟨hwf, hvalue⟩

/-- A negative power has no rational value at zero. -/
theorem Sums.power_nonneg {ts : List (ℤ × Fraction)} {a : ℚ} (h : Sums (.finite 0) ts a) :
    ∀ t ∈ ts, 0 ≤ t.1 := by
  induction h with
  | nil => simp
  | cons _ _ hs _ ih =>
    refine List.forall_mem_cons.2 ⟨?_, ih⟩
    rcases Extended.zpow_eq_finite hs with hzero | ⟨_, hq, hle, -⟩ | ⟨_, hinf, -⟩
    · exact hzero.ge
    · cases hq
      exact hle.resolve_right (by simp)
    · cases hinf

/-- Zero is a root only if all powers are positive: a negative power has no value there, and the
power zero leaves its coefficient. -/
theorem smallestPower_pos_of_root_zero (hp : p.Reduced) (hne : p.terms ≠ [])
    (hroot : Sums (.finite 0) p.terms 0) : 0 < p.smallestPower := by
  obtain ⟨ts⟩ := p
  obtain ⟨s, us, rfl⟩ := List.exists_cons_of_ne_nil hne
  obtain ⟨hlt, -, -⟩ := ordered_cons.1 hp.ordered
  show 0 < s.1
  have hnonneg := hroot.power_nonneg
  refine (hnonneg s List.mem_cons_self).lt_of_ne ?_
  intro hzero
  have hsum : sumAt 0 (s :: us) = 0 :=
    (sums_sumAt hp.ordered.rational fun t ht hneg => absurd hneg (hnonneg t ht).not_gt).unique hroot
  have htail : sumAt 0 us = 0 := by
    refine List.sum_eq_zero ?_
    rw [List.forall_mem_map]
    intro u hu
    have := hlt u hu
    rw [zero_zpow _ (by omega), mul_zero]
  rw [sumAt_cons, htail, ← hzero, zpow_zero, mul_one, add_zero] at hsum
  exact hp.toRat_ne_zero List.mem_cons_self hsum

theorem exists_candidate_of_root {r : Fraction} (hp : p.Reduced) (hne : p.terms ≠ [])
    (hr : r.IsRational) (hroot : (p.eval r == Fraction.zero) = true) :
    ∃ f ∈ p.candidateRoots, f.toRat = r.toRat := by
  obtain ⟨s, hs, hsmall, hlow⟩ := exists_lowest_term hp.ordered.ascending hne
  obtain ⟨l, hl, hlarge, hlead⟩ := exists_leading_term hp.ordered.ascending hne
  have hsums := sums_of_root hp hr hroot
  rw [exists_candidate_iff hp hs hsmall hl hlarge]
  by_cases hzero : r.toRat = 0
  · rw [hzero] at hsums
    exact .inl ⟨smallestPower_pos_of_root_zero hp hne hsums, hzero⟩
  · have hsum : sumAt r.toRat p.terms = 0 :=
      (sums_sumAt hp.ordered.rational fun _ _ _ => hzero).unique hsums
    obtain ⟨hnum, hden⟩ := num_dvd_and_den_dvd_of_root hp hs hsmall hlow hl hlead hzero hsum
    refine .inr ⟨r.toRat.num.natAbs, r.toRat.den, Int.natAbs_dvd_natAbs.2 hnum,
      Int.natCast_dvd.1 hden, ?_⟩
    have hquot := r.toRat.num_div_den
    rcases Int.natAbs_eq r.toRat.num with hsign | hsign
    · left
      rw [hsign, Int.cast_natCast] at hquot
      exact hquot.symm
    · right
      rw [hsign, Int.cast_neg, Int.cast_natCast, neg_div] at hquot
      exact hquot.symm

/-- The candidates contain every rational root of a polynomial that is not zero. No two of them are
equal, and all are rational numbers. With the denominators cleared, each candidate other than zero is,
up to its sign, a divisor of the lowest coefficient over a divisor of the leading one. -/
theorem candidateRoots_contain_every_root (hp : p.Reduced) (hne : p.isZero = false) :
    (∀ r : Fraction, r.IsRational → (p.eval r == Fraction.zero) = true →
      ∃ f ∈ p.candidateRoots, (f == r) = true) ∧
    p.candidateRoots.Pairwise (fun f g => (f == g) = false) ∧
    (∀ f ∈ p.candidateRoots, f.IsRational) ∧
    ∃ lowest leading : ℤ,
      (lowest : ℚ) = (p.coefficient p.smallestPower).toRat * p.denominatorLcm ∧
      (leading : ℚ) = p.leadingCoefficient.toRat * p.denominatorLcm ∧
      ∀ f ∈ p.candidateRoots, f.isZero = false →
        ∃ a b : ℕ, (a : ℤ) ∣ lowest ∧ (b : ℤ) ∣ leading ∧
          (f.toRat = a / b ∨ f.toRat = -(a / b)) := by
  have hterms : p.terms ≠ [] := List.isEmpty_eq_false_iff.1 hne
  obtain ⟨s, hs, hsmall, -⟩ := exists_lowest_term hp.ordered.ascending hterms
  obtain ⟨l, hl, hlarge, -⟩ := exists_leading_term hp.ordered.ascending hterms
  have hlist := candidateRoots_eq hp.ordered hs hsmall hl hlarge
  have hrat : ∀ f ∈ p.candidateRoots, f.IsRational := by
    rw [hlist]
    exact forall_mem_pushAll (isRational_of_mem_zeroCandidates p) (isRational_of_mem_quotients
      (Int.natAbs_ne_zero.2 (cleared_ne_zero hp hs)) (Int.natAbs_ne_zero.2 (cleared_ne_zero hp hl)))
  refine ⟨?_, ?_, hrat, p.cleared s, p.cleared l, ?_, ?_, ?_⟩
  · intro r hr hroot
    obtain ⟨f, hf, hvalue⟩ := exists_candidate_of_root hp hterms hr hroot
    exact ⟨f, hf, ((hrat f hf).beq_iff hr).2 hvalue⟩
  · rw [hlist]
    apply distinct_pushAll
    unfold zeroCandidates
    split_ifs
    · exact List.pairwise_singleton _ _
    · exact .nil
  · rw [hsmall, coefficient_of_mem hp.ordered.ascending hs, cleared_eq hs]
  · rw [leadingCoefficient, hlarge, coefficient_of_mem hp.ordered.ascending hl, cleared_eq hl]
  · intro f hf hzero
    have hvalue := (exists_candidate_iff hp hs hsmall hl hlarge).1 ⟨f, hf, rfl⟩
    rcases hvalue with ⟨-, h0⟩ | ⟨a, b, ha, hb, hquot⟩
    · rw [(hrat f hf).isZero_iff.2 h0] at hzero
      cases hzero
    · exact ⟨a, b, Int.natCast_dvd.2 ha, Int.natCast_dvd.2 hb, hquot⟩

/-- The polynomial `1/2 x + 10/8 - 3/4 x^-1` has the root `1/2`, given as `2/4`. -/
theorem candidateRoots_contain_unreduced_root :
    let p : Laurent Fraction :=
      ⟨[(-1, .finite true 3 4), (0, .finite false 10 8), (1, .finite false 1 2)]⟩
    let r : Fraction := .finite false 2 4
    (p.eval r == Fraction.zero) = true ∧ ∃ f ∈ p.candidateRoots, (f == r) = true := by
  intro p r
  have hroot : (p.eval r == Fraction.zero) = true := by decide +kernel
  have hp : p.Reduced := ⟨⟨by decide, by decide⟩, by decide⟩
  exact ⟨hroot, (candidateRoots_contain_every_root hp rfl).1 r (by decide) hroot⟩

end Formula.Laurent
