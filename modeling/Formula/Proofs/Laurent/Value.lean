import Formula.Laurent.Basic
import Formula.Proofs.Fraction.Power

/-!
# The value of a polynomial

The value of a polynomial over well-formed fractions is the sum of the values of its terms, taken in
the extended rationals (`value_eval`). It depends on the quotient of the point only, so that points
need not be well formed (`eval_normalized`).
-/

namespace Formula.Laurent

/-- All coefficients are well formed. -/
def WellFormed (p : Laurent Fraction) : Prop :=
  ∀ t ∈ p.terms, t.2.WellFormed

instance : DecidablePred WellFormed :=
  fun p => inferInstanceAs (Decidable (∀ t ∈ p.terms, t.2.WellFormed))

theorem dropZeros_singleton {c : Fraction} (i : ℤ) (h : c.isZero = false) :
    dropZeros [(i, c)] = [(i, c)] := by
  have hkeep : Scalar.isZero c = false := h
  simp [dropZeros, hkeep]

/-- The sum of the values of the terms at `v`. -/
def valueAt (p : Laurent Fraction) (v : Extended) : Extended :=
  (p.terms.map fun t => t.2.value * v.zpow t.1).sum

theorem eval_normalized (p : Laurent Fraction) (x : Fraction) : p.eval x.normalized = p.eval x := by
  have hpow : Scalar.powInt x.normalized = Scalar.powInt x := funext x.powInt_normalized
  rw [eval, hpow, eval]

theorem wellFormed_foldl_eval {ts : List (ℤ × Fraction)} (x : Fraction) {acc : Fraction}
    (hacc : acc.WellFormed) :
    (ts.foldl (fun acc t => acc + t.2 * x.powInt t.1) acc).WellFormed := by
  induction ts generalizing acc with
  | nil => exact hacc
  | cons t ts ih => exact ih (Fraction.wellFormed_add _ _ hacc (Fraction.wellFormed_mul _ _))

theorem wellFormed_eval (p : Laurent Fraction) (x : Fraction) : (p.eval x).WellFormed :=
  wellFormed_foldl_eval x Fraction.wellFormed_zero

theorem value_foldl_eval {ts : List (ℤ × Fraction)} {x acc : Fraction}
    (hts : ∀ t ∈ ts, t.2.WellFormed) (hx : x.WellFormed) (hacc : acc.WellFormed) :
    (ts.foldl (fun acc t => acc + t.2 * x.powInt t.1) acc).value =
      acc.value + (ts.map fun t => t.2.value * x.value.zpow t.1).sum := by
  induction ts generalizing acc with
  | nil => simp
  | cons t ts ih =>
    simp only [List.forall_mem_cons] at hts
    have hmul := Fraction.wellFormed_mul t.2 (x.powInt t.1)
    have hterm : (t.2 * x.powInt t.1).value = t.2.value * x.value.zpow t.1 := by
      rw [Fraction.value_mul hts.1 (Fraction.wellFormed_powInt _ _), Fraction.value_powInt _ hx]
    rw [List.foldl_cons, ih hts.2 (Fraction.wellFormed_add _ _ hacc hmul),
      Fraction.value_add hacc hmul, hterm, List.map_cons, List.sum_cons, add_assoc]

/-- The value of a polynomial is the sum of the values of its terms. -/
theorem value_eval {p : Laurent Fraction} {x : Fraction} (hp : p.WellFormed) (hx : x.WellFormed) :
    (p.eval x).value = p.valueAt x.value := by
  have h := value_foldl_eval hp hx Fraction.wellFormed_zero
  rwa [Fraction.value_zero, zero_add] at h

end Formula.Laurent
