import Formula.Proofs.Laurent.Ring
import Formula.Proofs.Laurent.Value

/-!
# The laws of polynomial arithmetic

Up to `==` the operations on polynomials satisfy the laws of a commutative ring, as they are those of
the ring of Laurent polynomials. A polynomial made by the constructors and operations is `Canonical`:
its terms stand by ascending power, and none is zero, whether its coefficients are rational numbers or
not. So `==` is equality in the ring wherever the ring can be asked.
-/

namespace Formula.Laurent

variable {p q r : Laurent Fraction} {t : ℤ × Fraction} {ts us : List (ℤ × Fraction)}

/-! ## Coefficients -/

theorem coefficient_cons (t : ℤ × Fraction) (ts : List (ℤ × Fraction)) (i : ℤ) :
    (⟨t :: ts⟩ : Laurent Fraction).coefficient i =
      if i = t.1 then t.2 else (⟨ts⟩ : Laurent Fraction).coefficient i := by
  rw [coefficient, List.lookup_cons]
  split_ifs with h
  · rw [beq_iff_eq.2 h]
    rfl
  · rw [beq_eq_false_iff_ne.2 h]
    rfl

theorem coefficient_of_mem (h : p.terms.Pairwise fun t u => t.1 < u.1) (ht : t ∈ p.terms) :
    p.coefficient t.1 = t.2 := by
  obtain ⟨ts⟩ := p
  change ts.Pairwise _ at h
  induction ts with
  | nil => cases ht
  | cons u ts ih =>
    obtain ⟨hlt, hts⟩ := List.pairwise_cons.1 h
    rw [coefficient_cons]
    rcases List.mem_cons.1 ht with rfl | ht
    · exact if_pos rfl
    · rw [if_neg (hlt t ht).ne']
      exact ih ht hts

/-- What holds of zero and of all terms holds of every coefficient. -/
theorem forall_coefficient {P : Fraction → Prop} (hzero : P .zero) (h : ∀ t ∈ p.terms, P t.2)
    (i : ℤ) : P (p.coefficient i) := by
  obtain ⟨ts⟩ := p
  change ∀ t ∈ ts, _ at h
  induction ts with
  | nil => exact hzero
  | cons t ts ih =>
    rw [List.forall_mem_cons] at h
    rw [coefficient_cons]
    split_ifs
    · exact h.1
    · exact ih h.2

/-- The coefficients in the ring are those of the polynomial. -/
theorem coeff_toRing (h : Ordered p.terms) (i : ℤ) :
    p.toRing.coeff i = (p.coefficient i).toRat := by
  obtain ⟨ts⟩ := p
  change Ordered ts at h
  show (termSum ts).coeff i = _
  induction ts with
  | nil => exact Fraction.isRational_zero.2.symm
  | cons t ts ih =>
    obtain ⟨hlt, -, hts⟩ := ordered_cons.1 h
    rw [coeff_termSum, coefficient_cons]
    by_cases hi : i = t.1
    · rw [if_pos hi.symm, if_pos hi, coeff_termSum_of_lt (hi ▸ hlt), add_zero]
    · rw [if_neg (Ne.symm hi), if_neg hi, zero_add, ih hts]

/-! ## Ring laws -/

theorem toRing_subtracted (hp : Ordered p.terms) (hq : Ordered q.terms) :
    (p.subtracted q).toRing = p.toRing - q.toRing := by
  rw [subtracted, toRing_added hp (ordered_negated hq), toRing_negated hq, sub_eq_add_neg]

theorem toRing_power (hp : Ordered p.terms) (n : ℕ) : (p.power n).toRing = p.toRing ^ n := by
  rw [power_natCast, toRing_powNat hp]

theorem beq_added_comm (hp : Ordered p.terms) (hq : Ordered q.terms) :
    (p.added q == q.added p) = true := by
  rw [beq_iff_toRing_eq (reduced_added hp hq) (reduced_added hq hp), toRing_added hp hq,
    toRing_added hq hp, add_comm]

theorem beq_added_assoc (hp : Ordered p.terms) (hq : Ordered q.terms) (hr : Ordered r.terms) :
    ((p.added q).added r == p.added (q.added r)) = true := by
  have hpq := (reduced_added hp hq).ordered
  have hqr := (reduced_added hq hr).ordered
  rw [beq_iff_toRing_eq (reduced_added hpq hr) (reduced_added hp hqr), toRing_added hpq hr,
    toRing_added hp hq, toRing_added hp hqr, toRing_added hq hr, add_assoc]

theorem beq_multiplied_comm (hp : Ordered p.terms) (hq : Ordered q.terms) :
    (p.multiplied q == q.multiplied p) = true := by
  rw [beq_iff_toRing_eq (reduced_multiplied hp hq) (reduced_multiplied hq hp),
    toRing_multiplied hp hq, toRing_multiplied hq hp, mul_comm]

theorem beq_multiplied_assoc (hp : Ordered p.terms) (hq : Ordered q.terms) (hr : Ordered r.terms) :
    ((p.multiplied q).multiplied r == p.multiplied (q.multiplied r)) = true := by
  have hpq := (reduced_multiplied hp hq).ordered
  have hqr := (reduced_multiplied hq hr).ordered
  rw [beq_iff_toRing_eq (reduced_multiplied hpq hr) (reduced_multiplied hp hqr),
    toRing_multiplied hpq hr, toRing_multiplied hp hq, toRing_multiplied hp hqr,
    toRing_multiplied hq hr, mul_assoc]

theorem beq_multiplied_added (hp : Ordered p.terms) (hq : Ordered q.terms) (hr : Ordered r.terms) :
    (p.multiplied (q.added r) == (p.multiplied q).added (p.multiplied r)) = true := by
  have hqr := (reduced_added hq hr).ordered
  have hpq := (reduced_multiplied hp hq).ordered
  have hpr := (reduced_multiplied hp hr).ordered
  rw [beq_iff_toRing_eq (reduced_multiplied hp hqr) (reduced_added hpq hpr),
    toRing_multiplied hp hqr, toRing_added hq hr, toRing_added hpq hpr, toRing_multiplied hp hq,
    toRing_multiplied hp hr, mul_add]

theorem isZero_subtracted_self (hp : Ordered p.terms) : (p.subtracted p).isZero = true := by
  have hreduced : (p.subtracted p).Reduced := reduced_added hp (ordered_negated hp)
  have hzero : (p.subtracted p).toRing = 0 := by rw [toRing_subtracted hp hp, sub_self]
  exact List.isEmpty_iff.2 (hreduced.toRing_eq_zero_iff.1 hzero)

/-! ## Canonical polynomials -/

/-- The terms stand by ascending power, with well-formed coefficients, which may be infinite or NaN,
and none of them is zero. -/
structure Canonical (p : Laurent Fraction) : Prop where
  ascending : p.terms.Pairwise fun t u => t.1 < u.1
  wellFormed : p.WellFormed
  nonzero : ∀ t ∈ p.terms, t.2.isZero = false

theorem Canonical.reduced (h : p.Canonical) (hfinite : ∀ t ∈ p.terms, t.2.isFinite = true) :
    p.Reduced :=
  ⟨⟨h.ascending, fun t ht => ⟨h.wellFormed t ht, hfinite t ht⟩⟩, h.nonzero⟩

theorem canonical_dropZeros (hasc : ts.Pairwise fun t u => t.1 < u.1)
    (hwf : ∀ t ∈ ts, t.2.WellFormed) : Canonical ⟨dropZeros ts⟩ := by
  refine ⟨hasc.filter _, fun t ht => hwf t (List.mem_of_mem_filter ht), ?_⟩
  intro t ht
  have hkeep := (List.mem_filter.1 ht).2
  show Scalar.isZero t.2 = false
  simpa using hkeep

theorem canonical_ofTerms (h : ∀ t ∈ ts, t.2.WellFormed) : (ofTerms ts).Canonical := by
  apply canonical_dropZeros
  · exact List.foldlRecOn ts _ .nil fun acc hacc t _ => ascending_upsert hacc
  · refine List.foldlRecOn (motive := fun acc : List (ℤ × Fraction) => ∀ t ∈ acc, t.2.WellFormed)
      ts _ (by simp) ?_
    intro acc hacc t ht
    exact forall_mem_upsert hacc (h t ht) fun _ _ => h t ht

theorem ascending_gathered (h : ts.Pairwise fun t u => t.1 < u.1) :
    (gathered ts us).Pairwise fun t u => t.1 < u.1 :=
  List.foldlRecOn us _ h fun _ hacc _ _ => ascending_upsert hacc

theorem wellFormed_gathered (hts : ∀ t ∈ ts, t.2.WellFormed) (hus : ∀ u ∈ us, u.2.WellFormed) :
    ∀ t ∈ gathered ts us, t.2.WellFormed := by
  refine List.foldlRecOn (motive := fun acc : List (ℤ × Fraction) => ∀ t ∈ acc, t.2.WellFormed)
    us _ hts ?_
  intro acc hacc u hu
  apply forall_mem_upsert hacc
  · exact Fraction.wellFormed_add _ _ Fraction.wellFormed_zero (hus u hu)
  · exact fun t ht => Fraction.wellFormed_add _ _ (hacc t ht) (hus u hu)

theorem Canonical.added (hp : p.Canonical) (hq : q.Canonical) : (p.added q).Canonical :=
  canonical_dropZeros (ascending_gathered hp.ascending)
    (wellFormed_gathered hp.wellFormed hq.wellFormed)

/-- Negation drops no terms, and has no need to. -/
theorem Canonical.negated (hp : p.Canonical) : p.negated.Canonical := by
  refine ⟨List.pairwise_map.2 hp.ascending, ?_, ?_⟩
  · intro t ht
    obtain ⟨u, hu, rfl⟩ := List.mem_map.1 ht
    exact Fraction.wellFormed_neg u.2
  · intro t ht
    obtain ⟨u, hu, rfl⟩ := List.mem_map.1 ht
    rw [Fraction.isZero_neg (hp.wellFormed u hu)]
    exact hp.nonzero u hu

theorem Canonical.negated_negated (hp : p.Canonical) : p.negated.negated = p := by
  obtain ⟨ts⟩ := p
  have hterms : ∀ t ∈ ts, (t.1, - -t.2) = t := fun t ht => by
    rw [Fraction.neg_neg (hp.wellFormed t ht)]
  have hmap : (ts.map fun t => (t.1, - -t.2)) = ts := (List.map_congr_left hterms).trans ts.map_id
  show (⟨(ts.map _).map _⟩ : Laurent Fraction) = _
  rw [List.map_map]
  exact congrArg Laurent.mk hmap

theorem canonical_multiplied (p q : Laurent Fraction) : (p.multiplied q).Canonical := by
  rw [multiplied_eq]
  refine canonical_dropZeros (ascending_gathered .nil) (wellFormed_gathered (by simp) ?_)
  intro v hv
  obtain ⟨t, ht, hv⟩ := List.mem_flatMap.1 hv
  obtain ⟨u, hu, rfl⟩ := List.mem_map.1 hv
  exact Fraction.wellFormed_mul t.2 u.2

theorem canonical_reciprocal (p : Laurent Fraction) : p.reciprocal.Canonical := by
  apply canonical_ofTerms
  intro t ht
  obtain ⟨u, hu, rfl⟩ := List.mem_map.1 ht
  exact Fraction.wellFormed_div .one u.2

theorem canonical_power (p : Laurent Fraction) (n : ℤ) : (p.power n).Canonical := by
  unfold power
  split_ifs
  · exact canonical_reciprocal _
  · cases n.natAbs with
    | zero => exact canonical_ofTerms (List.forall_mem_singleton.2 Fraction.wellFormed_one)
    | succ k => exact canonical_multiplied _ _

/-! ## Polynomials made by the operations -/

/-- The polynomials that come from lists of terms or coefficients by any sequence of operations. -/
inductive Built : Laurent Fraction → Prop
  | ofTerms {ts : List (ℤ × Fraction)} (h : ∀ t ∈ ts, t.2.WellFormed) : Built (ofTerms ts)
  | ofCoefficients {cs : List Fraction} (h : ∀ c ∈ cs, c.WellFormed) : Built (ofCoefficients cs)
  | monomial {c : Fraction} (power : ℤ) (h : c.WellFormed) : Built (monomial c power)
  | added {p q : Laurent Fraction} (hp : Built p) (hq : Built q) : Built (p.added q)
  | negated {p : Laurent Fraction} (hp : Built p) : Built p.negated
  | subtracted {p q : Laurent Fraction} (hp : Built p) (hq : Built q) : Built (p.subtracted q)
  | multiplied {p q : Laurent Fraction} (hp : Built p) (hq : Built q) : Built (p.multiplied q)
  | reciprocal {p : Laurent Fraction} (hp : Built p) : Built p.reciprocal
  | power {p : Laurent Fraction} (n : ℤ) (hp : Built p) : Built (p.power n)

theorem wellFormed_of_mem_zipIdx {cs : List Fraction} (h : ∀ c ∈ cs, c.WellFormed) :
    ∀ t ∈ cs.reverse.zipIdx.map fun (c, power) => ((power : ℤ), c), t.2.WellFormed := by
  intro t ht
  obtain ⟨⟨c, power⟩, hc, rfl⟩ := List.mem_map.1 ht
  exact h c (List.mem_reverse.1 (List.fst_mem_of_mem_zipIdx hc))

theorem Built.canonical (h : Built p) : p.Canonical := by
  induction h with
  | ofTerms h => exact canonical_ofTerms h
  | ofCoefficients h => exact canonical_ofTerms (wellFormed_of_mem_zipIdx h)
  | monomial power h => exact canonical_ofTerms (List.forall_mem_singleton.2 h)
  | added _ _ ihp ihq => exact ihp.added ihq
  | negated _ ih => exact ih.negated
  | subtracted _ _ ihp ihq => exact ihp.added ihq.negated
  | multiplied => exact canonical_multiplied _ _
  | reciprocal => exact canonical_reciprocal _
  | power n => exact canonical_power _ n

/-- Polynomials over the rational numbers are the Laurent polynomials with their coefficients. The
operations are those of the ring, and so they satisfy its laws up to `==`. Whatever the coefficients,
no polynomial made by the operations has a zero among them, and for rational coefficients `==` on such
polynomials is equality in the ring. -/
theorem arithmetic_is_laurent_ring (hp : Ordered p.terms) (hq : Ordered q.terms)
    (hr : Ordered r.terms) :
    (∀ i, p.toRing.coeff i = (p.coefficient i).toRat) ∧
    ((p.added q).toRing = p.toRing + q.toRing ∧ p.negated.toRing = -p.toRing ∧
      (p.subtracted q).toRing = p.toRing - q.toRing ∧
      (p.multiplied q).toRing = p.toRing * q.toRing ∧
      ∀ n : ℕ, (p.power n).toRing = p.toRing ^ n) ∧
    ((p.added q == q.added p) = true ∧ ((p.added q).added r == p.added (q.added r)) = true ∧
      (p.multiplied q == q.multiplied p) = true ∧
      ((p.multiplied q).multiplied r == p.multiplied (q.multiplied r)) = true ∧
      (p.multiplied (q.added r) == (p.multiplied q).added (p.multiplied r)) = true ∧
      (p.subtracted p).isZero = true) ∧
    (∀ a, Built a → ∀ t ∈ a.terms, t.2.isZero = false) ∧
    ∀ a b, Built a → Built b → (∀ t ∈ a.terms, t.2.isFinite = true) →
      (∀ t ∈ b.terms, t.2.isFinite = true) → ((a == b) = true ↔ a.toRing = b.toRing) := by
  refine ⟨coeff_toRing hp, ⟨toRing_added hp hq, toRing_negated hp, toRing_subtracted hp hq,
    toRing_multiplied hp hq, toRing_power hp⟩, ⟨beq_added_comm hp hq, beq_added_assoc hp hq hr,
    beq_multiplied_comm hp hq, beq_multiplied_assoc hp hq hr, beq_multiplied_added hp hq hr,
    isZero_subtracted_self hp⟩, fun a ha => ha.canonical.nonzero, ?_⟩
  intro a b ha hb hafin hbfin
  exact beq_iff_toRing_eq (ha.canonical.reduced hafin) (hb.canonical.reduced hbfin)

/-- With `p = 2/4 x + x^-1`, `q = 3 - 1/2 x` and `r = -3 + 4 x^2` the constant terms of `q + r` cancel.
The product of `x + x^-1` and `x - x^-1` is the same element of the ring as `x^2 - x^-2`. -/
theorem arithmetic_is_laurent_ring_with_cancellation :
    let p : Laurent Fraction := ⟨[(-1, .one), (1, .finite false 2 4)]⟩
    let q : Laurent Fraction := ⟨[(0, .finite false 3 1), (1, .finite true 1 2)]⟩
    let r : Laurent Fraction := ⟨[(0, .finite true 3 1), (2, .finite false 4 1)]⟩
    let sum : Laurent Fraction := .ofTerms [(1, .one), (-1, .one)]
    let difference : Laurent Fraction := (monomial .one 1).subtracted (monomial .one 1).reciprocal
    let squares : Laurent Fraction := .ofTerms [(2, .one), (-2, .finite true 2 2)]
    (p.multiplied (q.added r) == (p.multiplied q).added (p.multiplied r)) = true ∧
      (sum.multiplied difference).toRing = squares.toRing := by
  intro p q r sum difference squares
  obtain ⟨-, -, ⟨-, -, -, -, hdistrib, -⟩, -, hbeq⟩ :=
    arithmetic_is_laurent_ring (p := p) (q := q) (r := r) ⟨by decide, by decide⟩
      ⟨by decide, by decide⟩ ⟨by decide, by decide⟩
  have hx : Built (monomial Fraction.one 1) := .monomial 1 (by decide)
  have hproduct : Built (sum.multiplied difference) :=
    .multiplied (.ofTerms (by decide)) (.subtracted hx hx.reciprocal)
  refine ⟨hdistrib, (hbeq _ _ hproduct (.ofTerms (by decide)) ?_ ?_).1 ?_⟩
  · decide +kernel
  · decide +kernel
  · decide +kernel

end Formula.Laurent
