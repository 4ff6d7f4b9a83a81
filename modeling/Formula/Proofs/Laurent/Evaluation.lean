import Formula.Proofs.Laurent.Arithmetic
import Formula.Proofs.Laurent.Ring

/-!
# Evaluation at rational points

At a rational point a polynomial with rational coefficients has the sum of its terms for its value, and
evaluation turns sums, negations, products and powers of polynomials into those of fractions. All of
it needs the point to be different from zero where a negative power occurs. Coefficients from the
highest power down are evaluated as by Horner's rule (`horner_eq_sum`).
-/

namespace Formula.Laurent

variable {p q : Laurent Fraction} {x : Fraction} {t : ℤ × Fraction} {ts : List (ℤ × Fraction)}
  {a : ℚ} {i : ℤ}

/-! ## Sums at a rational point -/

/-- The sum of the terms where the variable is `a`. The power zero is one there, also for zero. -/
def sumAt (a : ℚ) (ts : List (ℤ × Fraction)) : ℚ :=
  (ts.map fun t => t.2.toRat * a ^ t.1).sum

theorem sumAt_cons (a : ℚ) (t : ℤ × Fraction) (ts : List (ℤ × Fraction)) :
    sumAt a (t :: ts) = t.2.toRat * a ^ t.1 + sumAt a ts := List.sum_cons

theorem sums_sumAt (hts : ∀ t ∈ ts, t.2.IsRational) (ha : ∀ t ∈ ts, t.1 < 0 → a ≠ 0) :
    Sums (.finite a) ts (sumAt a ts) := by
  induction ts with
  | nil => exact .nil
  | cons t ts ih =>
    rw [List.forall_mem_cons] at hts ha
    have hpower : 0 ≤ t.1 ∨ a ≠ 0 := by
      by_cases h : t.1 < 0
      · exact .inr (ha.1 h)
      · exact .inl (by omega)
    rw [sumAt_cons]
    exact .cons hts.1.1 hts.1.value_eq (Extended.finite_zpow hpower) (ih hts.2 ha.2)

/-- A polynomial whose terms have a rational sum has this sum for its value. -/
theorem eval_of_sums (hx : x.IsRational) (h : Sums (.finite x.toRat) p.terms a) :
    (p.eval x).IsRational ∧ (p.eval x).toRat = a := by
  rw [← hx.value_eq] at h
  obtain ⟨hwf, hvalue⟩ := sums_iff.1 h
  exact Fraction.isRational_of_value (wellFormed_eval p x) ((value_eval hwf hx.1).trans hvalue)

/-! ## Coefficients in descending order -/

theorem upsert_of_lt {f : Option Fraction → Fraction} (h : ∀ t ∈ ts, t.1 < i) :
    upsert i f ts = ts ++ [(i, f none)] := by
  induction ts with
  | nil => rfl
  | cons t ts ih =>
    rw [List.forall_mem_cons] at h
    rw [upsert, if_neg (by omega), if_neg h.1.ne', ih h.2, List.cons_append]

/-- Terms that stand by ascending power are taken as they are. -/
theorem ofTerms_of_ascending (h : ts.Pairwise fun t u => t.1 < u.1) :
    ofTerms ts = ⟨dropZeros ts⟩ := by
  have hfold (acc : List (ℤ × Fraction)) (hacc : ∀ u ∈ acc, ∀ t ∈ ts, u.1 < t.1) :
      ts.foldl (fun acc t => upsert t.1 (fun _ => t.2) acc) acc = acc ++ ts := by
    induction ts generalizing acc with
    | nil => exact (List.append_nil acc).symm
    | cons t ts ih =>
      obtain ⟨hlt, hts⟩ := List.pairwise_cons.1 h
      rw [List.foldl_cons, upsert_of_lt fun u hu => hacc u hu t List.mem_cons_self,
        ih hts _ ?_, List.append_assoc, List.singleton_append]
      intro u hu v hv
      rcases List.mem_append.1 hu with hu | hu
      · exact hacc u hu v (List.mem_cons_of_mem t hv)
      · rw [List.mem_singleton.1 hu]
        exact hlt v hv
  have hterms := hfold [] (by simp)
  rw [List.nil_append] at hterms
  rw [ofTerms]
  exact congrArg (fun ts => (⟨dropZeros ts⟩ : Laurent Fraction)) hterms

/-- The coefficients `cs`, from power `n` up, with their powers. -/
def powered (cs : List Fraction) (n : ℕ) : List (ℤ × Fraction) :=
  (cs.zipIdx n).map fun (c, power) => ((power : ℤ), c)

theorem powered_cons (c : Fraction) (cs : List Fraction) (n : ℕ) :
    powered (c :: cs) n = ((n : ℤ), c) :: powered cs (n + 1) := rfl

theorem forall_mem_powered {P : ℤ × Fraction → Prop} {cs : List Fraction} {n : ℕ}
    (h : ∀ c ∈ cs, ∀ k : ℕ, n ≤ k → P (k, c)) : ∀ t ∈ powered cs n, P t := by
  induction cs generalizing n with
  | nil => simp [powered]
  | cons c cs ih =>
    rw [List.forall_mem_cons] at h
    rw [powered_cons]
    exact List.forall_mem_cons.2
      ⟨h.1 n le_rfl, ih fun d hd k hk => h.2 d hd k (by omega)⟩

theorem ascending_powered (cs : List Fraction) (n : ℕ) :
    (powered cs n).Pairwise fun t u => t.1 < u.1 := by
  induction cs generalizing n with
  | nil => exact .nil
  | cons c cs ih =>
    rw [powered_cons]
    refine List.pairwise_cons.2 ⟨?_, ih (n + 1)⟩
    exact forall_mem_powered fun d _ k hk => by
      show (n : ℤ) < k
      omega

theorem ofCoefficients_eq (cs : List Fraction) :
    ofCoefficients cs = ⟨dropZeros (powered cs.reverse 0)⟩ :=
  ofTerms_of_ascending (ascending_powered cs.reverse 0)

/-- Horner's rule from the highest power down gives the sum of the terms. -/
theorem horner_eq_sum (cs : List Fraction) (a : ℚ) :
    cs.foldl (fun acc c => acc * a + c.toRat) 0 = sumAt a (powered cs.reverse 0) := by
  -- from the lowest power up, where the rest of the sum has a common factor
  have hrise (cs : List Fraction) (n : ℕ) :
      sumAt a (powered cs n) = a ^ n * cs.foldr (fun c acc => acc * a + c.toRat) 0 := by
    induction cs generalizing n with
    | nil => simp [sumAt, powered]
    | cons c cs ih =>
      rw [powered_cons, sumAt_cons, ih, List.foldr_cons, zpow_natCast, pow_succ]
      ring
  rw [hrise, pow_zero, one_mul, List.foldr_reverse]

theorem sums_ofCoefficients {cs : List Fraction} (hcs : ∀ c ∈ cs, c.IsRational) (a : ℚ) :
    Sums (.finite a) (ofCoefficients cs).terms
      (cs.foldl (fun acc c => acc * a + c.toRat) 0) := by
  rw [ofCoefficients_eq, horner_eq_sum]
  refine (sums_sumAt ?_ ?_).dropZeros
  · exact forall_mem_powered fun c hc k _ => hcs c (List.mem_reverse.1 hc)
  · exact forall_mem_powered fun c _ k _ hneg => absurd hneg (by simp)

/-! ## Homomorphism -/

/-- Evaluation at a rational point is exact and a homomorphism. If `p` and `q` have rational
coefficients, and `x` is not zero where one of them has a negative power, the value of `p` at `x` is the
sum of its terms, and the values of sums, negations, products and powers are those of the values.
Coefficients listed from the highest power down have the value of Horner's rule. -/
theorem eval_is_homomorphism (hp : ∀ t ∈ p.terms, t.2.IsRational)
    (hq : ∀ t ∈ q.terms, t.2.IsRational) (hx : x.IsRational)
    (hzero : (∃ t ∈ p.terms ++ q.terms, t.1 < 0) → x.toRat ≠ 0) :
    ((p.eval x).IsRational ∧
      (p.eval x).toRat = (p.terms.map fun t => t.2.toRat * x.toRat ^ t.1).sum) ∧
    ((p.added q).eval x == p.eval x + q.eval x) = true ∧
    (p.negated.eval x == -p.eval x) = true ∧
    ((p.multiplied q).eval x == p.eval x * q.eval x) = true ∧
    (∀ n : ℕ, ((p.power n).eval x == (p.eval x).powInt n) = true) ∧
    ∀ cs : List Fraction, (∀ c ∈ cs, c.IsRational) → ((ofCoefficients cs).eval x).IsRational ∧
      ((ofCoefficients cs).eval x).toRat = cs.foldl (fun acc c => acc * x.toRat + c.toRat) 0 := by
  have hps := sums_sumAt hp fun t ht hneg => hzero ⟨t, List.mem_append_left _ ht, hneg⟩
  have hqs := sums_sumAt hq fun t ht hneg => hzero ⟨t, List.mem_append_right _ ht, hneg⟩
  obtain ⟨hpr, hpv⟩ := eval_of_sums hx hps
  obtain ⟨hqr, hqv⟩ := eval_of_sums hx hqs
  refine ⟨⟨hpr, hpv⟩, ?_, ?_, ?_, ?_, fun cs hcs => eval_of_sums hx (sums_ofCoefficients hcs _)⟩
  · obtain ⟨hr, hv⟩ := eval_of_sums hx (sums_added hps hqs)
    rw [hr.beq_iff (hpr.add hqr).1, hv, (hpr.add hqr).2, hpv, hqv]
  · obtain ⟨hr, hv⟩ := eval_of_sums hx hps.negated
    rw [hr.beq_iff hpr.neg.1, hv, hpr.neg.2, hpv]
  · obtain ⟨hr, hv⟩ := eval_of_sums hx (sums_multiplied hps hqs)
    rw [hr.beq_iff (hpr.mul hqr).1, hv, (hpr.mul hqr).2, hpv, hqv]
  · intro n
    obtain ⟨hr, hv⟩ := eval_of_sums hx (sums_power (n := n) hps (.inl (by omega)))
    rw [Fraction.beq_iff hr.1 (Fraction.wellFormed_powInt _ _), Fraction.value_powInt _ hpr.1,
      hr.value_eq, hpr.value_eq, hv, hpv, Extended.finite_zpow (.inl (by omega))]
    exact ⟨rfl, by simp⟩

/-- The polynomials `x^-1 + 2/4 x` and `3 x^-2 - 1` at the point `-4/6`, and `x^2 + 7x + 10` there. -/
theorem eval_is_homomorphism_at_unreduced_point :
    let p : Laurent Fraction := ⟨[(-1, .one), (1, .finite false 2 4)]⟩
    let q : Laurent Fraction := ⟨[(-2, .finite false 3 1), (0, .finite true 1 1)]⟩
    let x : Fraction := .finite true 4 6
    let cs : List Fraction := [.one, .finite false 7 1, .finite false 20 2]
    (p.eval x).toRat = -11 / 6 ∧
      ((p.multiplied q).eval x == p.eval x * q.eval x) = true ∧
      ((p.power (3 : ℕ)).eval x == (p.eval x).powInt (3 : ℕ)) = true ∧
      ((ofCoefficients cs).eval x).toRat = 52 / 9 := by
  intro p q x cs
  have hx : x.toRat = -2 / 3 := by norm_num [x, Fraction.toRat, Fraction.signed]
  obtain ⟨⟨-, hvalue⟩, -, -, hproduct, hpower, hhorner⟩ :=
    eval_is_homomorphism (p := p) (q := q) (x := x) (by decide) (by decide) (by decide)
      fun _ => by norm_num [hx]
  refine ⟨?_, hproduct, hpower 3, ?_⟩
  · rw [hvalue, hx]
    simp only [p, List.map_cons, List.map_nil, zpow_neg_one, zpow_one, Fraction.one, Fraction.toRat,
      Fraction.signed]
    norm_num
  · rw [(hhorner cs (by decide)).2, hx]
    norm_num [cs, Fraction.one, Fraction.toRat, Fraction.signed]

end Formula.Laurent
