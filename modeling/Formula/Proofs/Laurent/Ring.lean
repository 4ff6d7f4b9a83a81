import Formula.Proofs.Fraction.Rational
import Formula.Proofs.Laurent.Powers
import Mathlib.Algebra.Polynomial.Laurent

/-!
# Polynomials in the ring of Laurent polynomials

`toRing p` is the Laurent polynomial with the terms of `p`, for rational coefficients. A `Reduced`
polynomial lists its terms by ascending power and has no zero coefficient; then `==` is equality in the
ring (`beq_iff_toRing_eq`). The operations give reduced polynomials and are those of the ring
(`toRing_added`, …).
-/

namespace Formula.Laurent

open LaurentPolynomial (C T)

/-! ## Terms -/

/-- The sum of the terms in the ring of Laurent polynomials. -/
noncomputable def termSum (ts : List (ℤ × Fraction)) : LaurentPolynomial ℚ :=
  (ts.map fun t => C t.2.toRat * T t.1).sum

/-- The terms stand by ascending power and have rational coefficients. -/
structure Ordered (ts : List (ℤ × Fraction)) : Prop where
  ascending : ts.Pairwise fun t u => t.1 < u.1
  rational : ∀ t ∈ ts, t.2.IsRational

variable {ts us : List (ℤ × Fraction)} {t : ℤ × Fraction} {i : ℤ} {c : Fraction}

@[simp] theorem termSum_nil : termSum [] = 0 := rfl

@[simp] theorem termSum_cons (t : ℤ × Fraction) (ts : List (ℤ × Fraction)) :
    termSum (t :: ts) = C t.2.toRat * T t.1 + termSum ts := List.sum_cons

theorem termSum_append (ts us : List (ℤ × Fraction)) :
    termSum (ts ++ us) = termSum ts + termSum us := by
  rw [termSum, List.map_append, List.sum_append, termSum, termSum]

theorem ordered_nil : Ordered [] := ⟨.nil, by simp⟩

theorem ordered_cons :
    Ordered (t :: ts) ↔ (∀ u ∈ ts, t.1 < u.1) ∧ t.2.IsRational ∧ Ordered ts := by
  constructor
  · rintro ⟨hasc, hrat⟩
    rw [List.pairwise_cons] at hasc
    rw [List.forall_mem_cons] at hrat
    exact ⟨hasc.1, hrat.1, hasc.2, hrat.2⟩
  · rintro ⟨hlt, ht, hts⟩
    exact ⟨List.pairwise_cons.2 ⟨hlt, hts.ascending⟩, List.forall_mem_cons.2 ⟨ht, hts.rational⟩⟩

theorem coeff_termSum (t : ℤ × Fraction) (ts : List (ℤ × Fraction)) (i : ℤ) :
    (termSum (t :: ts)).coeff i = (if t.1 = i then t.2.toRat else 0) + (termSum ts).coeff i := by
  rw [termSum_cons, ← LaurentPolynomial.single_eq_C_mul_T, AddMonoidAlgebra.coeff_add,
    Finsupp.add_apply, AddMonoidAlgebra.coeff_single, Finsupp.single_apply]

/-- A power that is less than all others is not met. -/
theorem coeff_termSum_of_lt (h : ∀ u ∈ ts, i < u.1) : (termSum ts).coeff i = 0 := by
  induction ts with
  | nil => rfl
  | cons t ts ih =>
    rw [List.forall_mem_cons] at h
    rw [coeff_termSum, if_neg h.1.ne', ih h.2, add_zero]

theorem coeff_termSum_cons (h : Ordered (t :: ts)) : (termSum (t :: ts)).coeff t.1 = t.2.toRat := by
  rw [coeff_termSum, if_pos rfl, coeff_termSum_of_lt (ordered_cons.1 h).1, add_zero]

/-! ## Accumulated terms -/

theorem ascending_upsert {f : Option Fraction → Fraction} (h : ts.Pairwise fun t u => t.1 < u.1) :
    (upsert i f ts).Pairwise fun t u => t.1 < u.1 := by
  induction ts with
  | nil => exact List.pairwise_singleton _ _
  | cons u ts ih =>
    obtain ⟨hlt, hts⟩ := List.pairwise_cons.1 h
    rw [upsert]
    split_ifs with hi heq
    · refine List.pairwise_cons.2 ⟨?_, h⟩
      exact List.forall_mem_cons.2 ⟨hi, fun v hv => hi.trans (hlt v hv)⟩
    · exact List.pairwise_cons.2 ⟨hlt, hts⟩
    · refine List.pairwise_cons.2 ⟨?_, ih hts⟩
      intro v hv
      rcases power_of_mem_upsert hv with hvi | ⟨w, hw, hvw⟩
      · show u.1 < v.1
        omega
      · exact hvw ▸ hlt w hw

theorem forall_mem_upsert {P : Fraction → Prop} {f : Option Fraction → Fraction}
    (h : ∀ t ∈ ts, P t.2) (hnone : P (f none)) (hsome : ∀ t ∈ ts, P (f (some t.2))) :
    ∀ t ∈ upsert i f ts, P t.2 := by
  induction ts with
  | nil => exact List.forall_mem_singleton.2 hnone
  | cons u ts ih =>
    have hts := List.forall_mem_cons.1 h
    rw [List.forall_mem_cons] at hsome
    rw [upsert]
    split_ifs with hi heq
    · exact List.forall_mem_cons.2 ⟨hnone, h⟩
    · exact List.forall_mem_cons.2 ⟨hsome.1, hts.2⟩
    · exact List.forall_mem_cons.2 ⟨hts.1, ih hts.2 hsome.2⟩

theorem Ordered.upsert {f : Option Fraction → Fraction} (h : Ordered ts)
    (hnone : (f none).IsRational) (hsome : ∀ t ∈ ts, (f (some t.2)).IsRational) :
    Ordered (upsert i f ts) :=
  ⟨ascending_upsert h.ascending, forall_mem_upsert h.rational hnone hsome⟩

theorem Ordered.accumulate (h : Ordered ts) (hc : c.IsRational) :
    Ordered (accumulate ts i c) :=
  h.upsert (Fraction.isRational_zero.1.add hc).1 fun t ht => ((h.rational t ht).add hc).1

theorem termSum_accumulate (h : Ordered ts) (hc : c.IsRational) :
    termSum (accumulate ts i c) = termSum ts + C c.toRat * T i := by
  have hnew : (Fraction.zero + c).toRat = c.toRat := by
    rw [(Fraction.isRational_zero.1.add hc).2, Fraction.isRational_zero.2, zero_add]
  induction ts with
  | nil =>
    show termSum [(i, Fraction.zero + c)] = _
    rw [termSum_cons, hnew, add_comm]
  | cons u ts ih =>
    obtain ⟨-, hu, hts⟩ := ordered_cons.1 h
    rw [Laurent.accumulate, upsert]
    split_ifs with hlt heq
    · show termSum ((i, Fraction.zero + c) :: u :: ts) = _
      rw [termSum_cons, hnew, add_comm]
    · show termSum ((u.1, u.2 + c) :: ts) = _
      rw [termSum_cons, termSum_cons, (hu.add hc).2, map_add, heq]
      ring
    · show termSum (u :: Laurent.accumulate ts i c) = _
      rw [termSum_cons, termSum_cons, ih hts, add_assoc]

/-- The terms of `us` added to those of `ts` one after the other. -/
def gathered (ts us : List (ℤ × Fraction)) : List (ℤ × Fraction) :=
  us.foldl (fun acc t => accumulate acc t.1 t.2) ts

theorem ordered_gathered (hts : Ordered ts) (hus : ∀ u ∈ us, u.2.IsRational) :
    Ordered (gathered ts us) := by
  induction us generalizing ts with
  | nil => exact hts
  | cons u us ih =>
    rw [List.forall_mem_cons] at hus
    exact ih (hts.accumulate hus.1) hus.2

theorem termSum_gathered (hts : Ordered ts) (hus : ∀ u ∈ us, u.2.IsRational) :
    termSum (gathered ts us) = termSum ts + termSum us := by
  induction us generalizing ts with
  | nil => exact (add_zero _).symm
  | cons u us ih =>
    rw [List.forall_mem_cons] at hus
    have h := ih (hts.accumulate (i := u.1) hus.1) hus.2
    rw [termSum_accumulate hts hus.1, add_assoc, ← termSum_cons] at h
    exact h

theorem Ordered.dropZeros (h : Ordered ts) : Ordered (dropZeros ts) :=
  ⟨h.ascending.filter _, fun t ht => h.rational t (List.mem_of_mem_filter ht)⟩

theorem termSum_dropZeros (h : ∀ t ∈ ts, t.2.IsRational) : termSum (dropZeros ts) = termSum ts := by
  induction ts with
  | nil => rfl
  | cons t ts ih =>
    rw [List.forall_mem_cons] at h
    rw [Laurent.dropZeros, List.filter_cons]
    split_ifs with hz
    · rw [termSum_cons, termSum_cons, ← ih h.2, Laurent.dropZeros]
    · have hzero : Scalar.isZero t.2 = true := by simpa using hz
      rw [termSum_cons, h.1.isZero_iff.1 hzero, map_zero, zero_mul, zero_add, ← ih h.2,
        Laurent.dropZeros]

/-! ## Reduced polynomials -/

/-- The Laurent polynomial with the terms of `p`. -/
noncomputable def toRing (p : Laurent Fraction) : LaurentPolynomial ℚ :=
  termSum p.terms

/-- The terms stand by ascending power, with rational coefficients that are not zero. -/
structure Reduced (p : Laurent Fraction) : Prop where
  ordered : Ordered p.terms
  nonzero : ∀ t ∈ p.terms, t.2.isZero = false

variable {p q : Laurent Fraction}

theorem Reduced.toRat_ne_zero (hp : p.Reduced) (ht : t ∈ p.terms) : t.2.toRat ≠ 0 := by
  intro h0
  have hzero := (hp.ordered.rational t ht).isZero_iff.2 h0
  simp [hp.nonzero t ht] at hzero

theorem reduced_dropZeros (h : Ordered ts) : Reduced ⟨dropZeros ts⟩ := by
  refine ⟨h.dropZeros, ?_⟩
  intro t ht
  have hkeep := (List.mem_filter.1 ht).2
  show Scalar.isZero t.2 = false
  simpa using hkeep

/-- Terms in any order make a reduced polynomial. -/
theorem reduced_ofTerms (h : ∀ t ∈ ts, t.2.IsRational) : (ofTerms ts).Reduced := by
  have hfold {acc : List (ℤ × Fraction)} (hacc : Ordered acc) :
      Ordered (ts.foldl (fun acc t => upsert t.1 (fun _ => t.2) acc) acc) := by
    induction ts generalizing acc with
    | nil => exact hacc
    | cons t ts ih =>
      rw [List.forall_mem_cons] at h
      exact ih h.2 (hacc.upsert h.1 fun _ _ => h.1)
  exact reduced_dropZeros (hfold ordered_nil)

/-! ## Equality -/

theorem beq_cons (t u : ℤ × Fraction) (ts us : List (ℤ × Fraction)) :
    ((⟨t :: ts⟩ : Laurent Fraction) == ⟨u :: us⟩) =
      (t.1 == u.1 && t.2 == u.2 && (⟨ts⟩ : Laurent Fraction) == ⟨us⟩) := by
  have hlength : ((t :: ts).length == (u :: us).length) = (ts.length == us.length) := by simp
  show ((t :: ts).length == (u :: us).length && (t.1 == u.1 && t.2 == u.2 && (ts.zip us).all _)) = _
  rw [hlength]
  exact Bool.and_left_comm _ _ _

theorem beq_nil_cons (u : ℤ × Fraction) (us : List (ℤ × Fraction)) :
    ((⟨[]⟩ : Laurent Fraction) == ⟨u :: us⟩) = false := rfl

theorem beq_cons_nil (t : ℤ × Fraction) (ts : List (ℤ × Fraction)) :
    ((⟨t :: ts⟩ : Laurent Fraction) == ⟨[]⟩) = false := rfl

/-- The least term of a reduced polynomial shows that it is not zero. -/
theorem Reduced.termSum_ne (h : Reduced ⟨t :: ts⟩) (hlt : ∀ u ∈ us, t.1 < u.1) :
    termSum (t :: ts) ≠ termSum us := by
  intro heq
  have hcoeff := coeff_termSum_cons h.ordered
  rw [heq, coeff_termSum_of_lt hlt] at hcoeff
  exact h.toRat_ne_zero List.mem_cons_self hcoeff.symm

theorem Reduced.tail (h : Reduced ⟨t :: ts⟩) : Reduced ⟨ts⟩ :=
  ⟨(ordered_cons.1 h.ordered).2.2, (List.forall_mem_cons.1 h.nonzero).2⟩

theorem Reduced.toRing_eq_zero_iff (hp : p.Reduced) : p.toRing = 0 ↔ p.terms = [] := by
  obtain ⟨ts⟩ := p
  cases ts with
  | nil => simp [toRing]
  | cons t ts =>
    have h : termSum (t :: ts) ≠ termSum [] := hp.termSum_ne (by simp)
    simpa [toRing] using h

/-- Reduced polynomials are equal if they are the same Laurent polynomial. -/
theorem beq_iff_toRing_eq (hp : p.Reduced) (hq : q.Reduced) :
    (p == q) = true ↔ p.toRing = q.toRing := by
  obtain ⟨ts⟩ := p
  obtain ⟨us⟩ := q
  show _ ↔ termSum ts = termSum us
  induction ts generalizing us with
  | nil =>
    cases us with
    | nil => exact iff_of_true rfl rfl
    | cons u us => exact iff_of_false (by simp [beq_nil_cons]) (hq.termSum_ne (by simp)).symm
  | cons t ts ih =>
    cases us with
    | nil => exact iff_of_false (by simp [beq_cons_nil]) (hp.termSum_ne (by simp))
    | cons u us =>
      obtain ⟨hlt, ht, -⟩ := ordered_cons.1 hp.ordered
      obtain ⟨hlu, hu, -⟩ := ordered_cons.1 hq.ordered
      rw [beq_cons, Bool.and_eq_true, Bool.and_eq_true, beq_iff_eq, ht.beq_iff hu,
        ih hp.tail us hq.tail]
      constructor
      · rintro ⟨⟨hpow, hcoeff⟩, hsum⟩
        rw [termSum_cons, termSum_cons, hpow, hcoeff, hsum]
      · intro hsum
        -- the lesser of two different least powers would stand on one side only
        have hpow : t.1 = u.1 := by
          rcases lt_trichotomy t.1 u.1 with h | h | h
          · refine absurd hsum (hp.termSum_ne ?_)
            exact List.forall_mem_cons.2 ⟨h, fun v hv => h.trans (hlu v hv)⟩
          · exact h
          · refine absurd hsum.symm (hq.termSum_ne ?_)
            exact List.forall_mem_cons.2 ⟨h, fun v hv => h.trans (hlt v hv)⟩
        have hcoeff : t.2.toRat = u.2.toRat := by
          rw [← coeff_termSum_cons hp.ordered, ← coeff_termSum_cons hq.ordered, hsum, hpow]
        rw [termSum_cons, termSum_cons, hpow, hcoeff] at hsum
        exact ⟨⟨hpow, hcoeff⟩, add_left_cancel hsum⟩

/-! ## Operations -/

theorem reduced_added (hp : Ordered p.terms) (hq : Ordered q.terms) : (p.added q).Reduced :=
  reduced_dropZeros (ordered_gathered hp hq.rational)

theorem toRing_added (hp : Ordered p.terms) (hq : Ordered q.terms) :
    (p.added q).toRing = p.toRing + q.toRing := by
  have h := ordered_gathered hp hq.rational
  exact (termSum_dropZeros h.rational).trans (termSum_gathered hp hq.rational)

theorem ordered_negated (hp : Ordered p.terms) : Ordered p.negated.terms := by
  refine ⟨List.pairwise_map.2 hp.ascending, ?_⟩
  intro t ht
  obtain ⟨u, hu, rfl⟩ := List.mem_map.1 ht
  exact (hp.rational u hu).neg.1

theorem Reduced.negated (hp : p.Reduced) : p.negated.Reduced := by
  refine ⟨ordered_negated hp.ordered, ?_⟩
  intro t ht
  obtain ⟨u, hu, rfl⟩ := List.mem_map.1 ht
  rw [Fraction.isZero_neg (hp.ordered.rational u hu).1]
  exact hp.nonzero u hu

theorem toRing_negated (hp : Ordered p.terms) : p.negated.toRing = -p.toRing := by
  obtain ⟨ts⟩ := p
  show termSum (ts.map fun t => (t.1, -t.2)) = -termSum ts
  change Ordered ts at hp
  induction ts with
  | nil => simp
  | cons t ts ih =>
    obtain ⟨-, ht, hts⟩ := ordered_cons.1 hp
    rw [List.map_cons, termSum_cons, termSum_cons, ih hts, ht.neg.2, map_neg]
    ring

/-- The products of all pairs of terms. -/
def products (ts us : List (ℤ × Fraction)) : List (ℤ × Fraction) :=
  ts.flatMap fun t => us.map fun u => (t.1 + u.1, t.2 * u.2)

theorem multiplied_eq (p q : Laurent Fraction) :
    p.multiplied q = ⟨dropZeros (gathered [] (products p.terms q.terms))⟩ := by
  rw [gathered, products, List.foldl_flatMap]
  simp only [List.foldl_map]
  rfl

theorem isRational_of_mem_products (hts : ∀ t ∈ ts, t.2.IsRational) (hus : ∀ u ∈ us, u.2.IsRational) :
    ∀ v ∈ products ts us, v.2.IsRational := by
  intro v hv
  obtain ⟨t, ht, hv⟩ := List.mem_flatMap.1 hv
  obtain ⟨u, hu, rfl⟩ := List.mem_map.1 hv
  exact ((hts t ht).mul (hus u hu)).1

/-- One row of the products: each term of `us` times the term `t`. -/
theorem termSum_row (ht : t.2.IsRational) (hus : ∀ u ∈ us, u.2.IsRational) :
    termSum (us.map fun u => (t.1 + u.1, t.2 * u.2)) = C t.2.toRat * T t.1 * termSum us := by
  induction us with
  | nil => simp
  | cons u us ih =>
    rw [List.forall_mem_cons] at hus
    rw [List.map_cons, termSum_cons, termSum_cons, ih hus.2, (ht.mul hus.1).2, map_mul,
      LaurentPolynomial.T_add]
    ring

theorem termSum_products (hts : ∀ t ∈ ts, t.2.IsRational) (hus : ∀ u ∈ us, u.2.IsRational) :
    termSum (products ts us) = termSum ts * termSum us := by
  induction ts with
  | nil => simp [products]
  | cons t ts ih =>
    rw [List.forall_mem_cons] at hts
    rw [products, List.flatMap_cons, termSum_append, termSum_row hts.1 hus, ← products, ih hts.2,
      termSum_cons, add_mul]

theorem reduced_multiplied (hp : Ordered p.terms) (hq : Ordered q.terms) :
    (p.multiplied q).Reduced := by
  rw [multiplied_eq]
  have hrat := isRational_of_mem_products hp.rational hq.rational
  exact reduced_dropZeros (ordered_gathered ordered_nil hrat)

theorem toRing_multiplied (hp : Ordered p.terms) (hq : Ordered q.terms) :
    (p.multiplied q).toRing = p.toRing * q.toRing := by
  have hrat := isRational_of_mem_products hp.rational hq.rational
  have hord := ordered_gathered ordered_nil hrat
  rw [multiplied_eq, toRing, termSum_dropZeros hord.rational, termSum_gathered ordered_nil hrat,
    termSum_products hp.rational hq.rational, termSum_nil, zero_add, toRing, toRing]

theorem terms_powNat_zero (p : Laurent Fraction) : (p.powNat 0).terms = [(0, Fraction.one)] := rfl

theorem reduced_powNat (hp : Ordered p.terms) (n : ℕ) : (p.powNat n).Reduced := by
  induction n with
  | zero => exact reduced_ofTerms (List.forall_mem_singleton.2 Fraction.isRational_one.1)
  | succ n ih => exact reduced_multiplied ih.ordered hp

theorem toRing_powNat (hp : Ordered p.terms) (n : ℕ) : (p.powNat n).toRing = p.toRing ^ n := by
  induction n with
  | zero =>
    rw [toRing, terms_powNat_zero, termSum_cons, Fraction.isRational_one.2, map_one]
    simp
  | succ n ih => rw [Laurent.powNat, toRing_multiplied (reduced_powNat hp n).ordered hp, ih, pow_succ]

theorem power_natCast (p : Laurent Fraction) (n : ℕ) : p.power n = p.powNat n := by
  rw [power, if_neg (by omega), Int.natAbs_natCast]

end Formula.Laurent
