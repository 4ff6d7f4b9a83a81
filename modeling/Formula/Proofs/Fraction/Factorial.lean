import Formula.Proofs.Fraction.Order
import Mathlib.Data.Nat.Factorial.Basic
import Mathlib.Logic.Relation

/-!
# Factorials of fractions

The factorial of a fraction is that of its value (`value_factorial`). The loop of `factorial` is kept
finite by a bound on its rounds. The computation here goes on step by step without a bound, as long as
the factor does not exceed the number. The number is at most 1000 and the factor grows by one in every
round, so it comes to the same end (`factorial_ends_with_exact_value`).
-/

namespace Formula

namespace Extended

/-- The factorial of a natural number up to 1000. It is infinite for greater ones, and NaN for
everything else. -/
def factorial : Extended → Extended
  | finite q =>
    if q.den = 1 ∧ 0 ≤ q then if q ≤ 1000 then finite q.num.toNat.factorial else infinite false
    else nan
  | _ => nan

theorem factorial_of_natCast (n : ℕ) :
    (finite (n : ℚ)).factorial = if n ≤ 1000 then finite n.factorial else infinite false := by
  have hle : (n : ℚ) ≤ 1000 ↔ n ≤ 1000 := by exact_mod_cast Iff.rfl
  simp [factorial, hle]

theorem factorial_natCast {n : ℕ} (hn : n ≤ 1000) :
    (finite (n : ℚ)).factorial = finite n.factorial := by
  rw [factorial_of_natCast, if_pos hn]

theorem factorial_eq_nan {v : Extended} (h : ∀ n : ℕ, v ≠ finite n) : v.factorial = nan := by
  cases v with
  | infinite a => rfl
  | nan => rfl
  | finite q =>
    refine if_neg fun ⟨hden, hpos⟩ => h q.num.toNat ?_
    have hnum : (q.num.toNat : ℤ) = q.num := Int.toNat_of_nonneg (Rat.num_nonneg.2 hpos)
    rw [← Int.cast_natCast, hnum, (Rat.den_eq_one_iff q).1 hden]

end Extended

/-! ## The steps of the loop -/

/-- How far a factorial is computed. -/
inductive Counting (α : Type) where
  /-- The numbers before `factor` have the product `product`. -/
  | multiplying (product factor : α)
  | finished (result : α)

namespace Counting

variable {α : Type} [Scalar α]

/-- The first factor is two. Numbers that have no factorial are turned away, and too great ones. -/
def start (x : α) : Counting α :=
  if Scalar.isNaN x || !Scalar.isWhole x || Scalar.isNegative x then finished Scalar.nan
  else if Scalar.lt (Scalar.ofInt (Scalar.factorialLimit α)) x then finished Scalar.infinity
  else multiplying Scalar.one (Scalar.ofInt 2)

/-- One step of the computation, if it is not finished. -/
def next? (x : α) : Counting α → Option (Counting α)
  | multiplying product factor =>
    if Scalar.le factor x then some (multiplying (product * factor) (factor + Scalar.one))
    else some (finished product)
  | finished _ => none

/-- Finitely many steps lead from one state to another. -/
def Reaches (x : α) : Counting α → Counting α → Prop :=
  Relation.ReflTransGen fun s t => next? x s = some t

theorem eq_of_reaches_finished {x r : α} {s : Counting α} (h : Reaches x (finished r) s) :
    s = finished r := by
  obtain rfl | ⟨t, hstep, -⟩ := Relation.ReflTransGen.cases_head h
  · rfl
  · cases hstep

/-- A step is determined by the state it leads away from, so there is one end only. -/
theorem Reaches.unique {x r r' : α} {s : Counting α} (h : Reaches x s (finished r))
    (h' : Reaches x s (finished r')) : r = r' := by
  induction h using Relation.ReflTransGen.head_induction_on with
  | refl =>
    cases eq_of_reaches_finished h'
    rfl
  | head hstep _ ih =>
    obtain rfl | ⟨t, hstep', hrest⟩ := Relation.ReflTransGen.cases_head h'
    · cases hstep
    · cases hstep.symm.trans hstep'
      exact ih hrest

end Counting

namespace Fraction

variable {f x product factor : Fraction} {n k : ℕ}

/-- The numbers up to `k` are multiplied, and `k + 1` is the factor that is due. -/
structure UpTo (k : ℕ) (product factor : Fraction) : Prop where
  wellFormed_product : product.WellFormed
  value_product : product.value = .finite k.factorial
  wellFormed_factor : factor.WellFormed
  value_factor : factor.value = .finite (k + 1 : ℕ)

theorem upTo_one : UpTo 1 one (ofInt 2) :=
  ⟨wellFormed_one, by simp [Extended.one_def], wellFormed_ofInt 2, value_ofInt 2⟩

namespace UpTo

theorem le_iff (h : UpTo k product factor) (hx : x.WellFormed) (hxv : x.value = .finite n) :
    Scalar.le factor x = true ↔ k + 1 ≤ n := by
  rw [scalar_le_iff h.wellFormed_factor hx, hxv, h.value_factor, Extended.finite_le, Nat.cast_le]

/-- A round takes in one number more. -/
theorem step (h : UpTo k product factor) : UpTo (k + 1) (product * factor) (factor + one) where
  wellFormed_product := wellFormed_mul product factor
  value_product := by
    rw [value_mul h.wellFormed_product h.wellFormed_factor, h.value_product, h.value_factor,
      Extended.finite_mul, Nat.factorial_succ, mul_comm]
    push_cast
    rfl
  wellFormed_factor := wellFormed_add factor one h.wellFormed_factor wellFormed_one
  value_factor := by
    rw [value_add h.wellFormed_factor wellFormed_one, h.value_factor, value_one, Extended.one_def,
      Extended.finite_add]
    push_cast
    rfl

/-- Where the loop ends. Zero ends it with the product of one. -/
theorem value_of_le (h : UpTo k product factor) (hk : k ≤ max n 1) (hn : n ≤ k) :
    product.value = .finite n.factorial := by
  rw [h.value_product]
  obtain rfl | hpos := Nat.eq_zero_or_pos n
  · obtain rfl | rfl := Nat.le_one_iff_eq_zero_or_eq_one.1 hk
    · rfl
    · rfl
  · obtain rfl : k = n := by omega
    rfl

/-- With enough rounds the bounded loop comes to the end of the unbounded one. -/
theorem reaches_factorialLoop (h : UpTo k product factor) (hx : x.WellFormed)
    (hxv : x.value = .finite n) {steps : ℕ} (hk : k ≤ max n 1) (hsteps : n ≤ k + steps) :
    (Counting.multiplying product factor).Reaches x
        (.finished (Scalar.factorialLoop x steps product factor)) ∧
      (Scalar.factorialLoop x steps product factor).value = .finite n.factorial := by
  induction steps generalizing k product factor with
  | zero =>
    have hle : ¬ Scalar.le factor x = true := by
      rw [h.le_iff hx hxv]
      omega
    -- the rounds are used up when the test fails anyway
    exact ⟨.single (if_neg hle), h.value_of_le hk hsteps⟩
  | succ steps ih =>
    rw [Scalar.factorialLoop]
    split_ifs with hle
    · have hround := (h.le_iff hx hxv).1 hle
      obtain ⟨hreaches, hvalue⟩ := ih h.step (by omega) (by omega)
      exact ⟨.head (if_pos hle) hreaches, hvalue⟩
    · have hend := (h.le_iff hx hxv).not.1 hle
      exact ⟨.single (if_neg hle), h.value_of_le hk (by omega)⟩

end UpTo

/-! ## Factorials -/

theorem wellFormed_factorialLoop (x : Fraction) (steps : ℕ) {acc : Fraction} (factor : Fraction)
    (h : acc.WellFormed) : (Scalar.factorialLoop x steps acc factor).WellFormed := by
  induction steps generalizing acc factor with
  | zero => exact h
  | succ steps ih =>
    rw [Scalar.factorialLoop]
    split_ifs
    · exact ih _ (wellFormed_mul _ _)
    · exact h

theorem wellFormed_factorial (f : Fraction) : (Scalar.factorial f).WellFormed := by
  unfold Scalar.factorial
  split_ifs
  · trivial
  · trivial
  · exact wellFormed_factorialLoop _ _ _ wellFormed_one

/-- The fractions that are not turned away are the natural numbers. -/
theorem hasFactorial_iff (hf : f.WellFormed) :
    (f.isNaN || !f.isWhole || f.isNegative) = false ↔ ∃ n : ℕ, f.value = .finite n := by
  cases f with
  | infinite a => simp [isWhole]
  | nan => simp [isNaN]
  | finite a n d =>
    simp only [isNaN, Bool.false_or, Bool.or_eq_false_iff, Bool.not_eq_false', isWhole_iff hf,
      isNegative_finite hf, decide_eq_false_iff_not, not_lt, value_finite, Extended.finite.injEq]
    constructor
    · rintro ⟨⟨k, hk⟩, hpos⟩
      rw [hk] at hpos
      lift k to ℕ using by exact_mod_cast hpos
      exact ⟨k, hk⟩
    · rintro ⟨k, hk⟩
      rw [hk]
      exact ⟨⟨k, rfl⟩, Nat.cast_nonneg k⟩

theorem limit_lt_iff (hf : f.WellFormed) (hv : f.value = .finite n) :
    Scalar.lt (ofInt 1000) f = true ↔ 1000 < n := by
  have h1000 : (ofInt 1000).value = .finite (1000 : ℕ) := value_ofInt 1000
  have hlt := Value.lt_fraction (wellFormed_ofInt 1000) hf (by simp [h1000]) (by simp [hv])
  rw [h1000, hv, Extended.finite_le, Nat.cast_le, not_le] at hlt
  exact hlt

theorem factorial_eq (f : Fraction) :
    Scalar.factorial f =
      if f.isNaN || !f.isWhole || f.isNegative then nan
      else if Scalar.lt (ofInt 1000) f then infinite false
      else Scalar.factorialLoop f 1000 one (ofInt 2) := rfl

theorem start_eq (f : Fraction) :
    Counting.start f =
      if f.isNaN || !f.isWhole || f.isNegative then .finished nan
      else if Scalar.lt (ofInt 1000) f then .finished (infinite false)
      else .multiplying one (ofInt 2) := rfl

/-- The loop from its start. -/
theorem reaches_factorialLoop_start (hf : f.WellFormed) (hv : f.value = .finite n) (hn : n ≤ 1000) :
    (Counting.multiplying one (ofInt 2)).Reaches f
        (.finished (Scalar.factorialLoop f 1000 one (ofInt 2))) ∧
      (Scalar.factorialLoop f 1000 one (ofInt 2)).value = .finite n.factorial :=
  upTo_one.reaches_factorialLoop hf hv (le_max_right n 1) (by omega)

theorem factorial_eq_nan (hf : f.WellFormed) (h : ∀ n : ℕ, f.value ≠ .finite n) :
    Scalar.factorial f = nan := by
  have hguard : (f.isNaN || !f.isWhole || f.isNegative) = true := by
    rw [← Bool.not_eq_false, hasFactorial_iff hf]
    exact not_exists.2 h
  rw [factorial_eq, if_pos hguard]

/-- The factorial of a fraction is the factorial of its value. -/
theorem value_factorial (hf : f.WellFormed) : (Scalar.factorial f).value = f.value.factorial := by
  by_cases h : ∃ n : ℕ, f.value = .finite n
  · obtain ⟨n, hv⟩ := h
    have hguard := (hasFactorial_iff hf).2 ⟨n, hv⟩
    have hlimit := limit_lt_iff hf hv
    rw [factorial_eq, hguard, if_neg Bool.false_ne_true, hv, Extended.factorial_of_natCast]
    by_cases hn : n ≤ 1000
    · rw [if_neg (hlimit.not.2 hn.not_gt), if_pos hn]
      exact (reaches_factorialLoop_start hf hv hn).2
    · rw [if_pos (hlimit.2 (not_le.1 hn)), if_neg hn]
      rfl
  · rw [factorial_eq_nan hf (not_exists.1 h), Extended.factorial_eq_nan (not_exists.1 h)]
    rfl

/-- The computation without a bound on its rounds ends with the factorial. -/
theorem reaches_factorial (hf : f.WellFormed) :
    (Counting.start f).Reaches f (.finished (Scalar.factorial f)) := by
  rw [start_eq, factorial_eq]
  split_ifs with hguard hlimit
  · exact .refl
  · exact .refl
  · obtain ⟨n, hv⟩ := (hasFactorial_iff hf).1 (Bool.eq_false_iff.2 hguard)
    rw [limit_lt_iff hf hv, not_lt] at hlimit
    exact (reaches_factorialLoop_start hf hv hlimit).1

/-- The computation of a factorial ends for every fraction, and with one result only. This is the
factorial of the natural number that the fraction stands for, whatever its terms are, or infinity if the
number is greater than 1000. It is NaN for all that is no natural number: negative numbers, numbers that
are not whole, infinities and NaN. -/
theorem factorial_ends_with_exact_value (hf : f.WellFormed) :
    (∀ r, (Counting.start f).Reaches f (.finished r) ↔ r = Scalar.factorial f) ∧
      (Scalar.factorial f).WellFormed ∧
      (∀ n : ℕ, f.value = .finite n → (Scalar.factorial f).value =
        if n ≤ 1000 then .finite n.factorial else .infinite false) ∧
      ((∀ n : ℕ, f.value ≠ .finite n) → (Scalar.factorial f).value = .nan) := by
  refine ⟨fun r => ⟨fun h => ?_, ?_⟩, wellFormed_factorial f, fun n hv => ?_, fun h => ?_⟩
  · exact h.unique (reaches_factorial hf)
  · rintro rfl
    exact reaches_factorial hf
  · rw [value_factorial hf, hv, Extended.factorial_of_natCast]
  · rw [factorial_eq_nan hf h, value_nan]

/-- The fraction `15 / 3`, which is not reduced, has the factorial 120; `2002 / 2` is too great, and
`-4 / 2` and `9 / 2` have none. -/
theorem factorial_ends_with_exact_value_of_unreduced :
    (finite false 15 3).WellFormed ∧ (finite false 15 3).value = .finite (5 : ℕ) ∧
      (Counting.start (finite false 15 3)).Reaches (finite false 15 3)
        (.finished (Scalar.factorial (finite false 15 3))) ∧
      (Scalar.factorial (finite false 15 3)).value = .finite 120 ∧
      (Scalar.factorial (finite false 2002 2)).value = .infinite false ∧
      (Scalar.factorial (finite true 4 2)).value = .nan ∧
      (Scalar.factorial (finite false 9 2)).value = .nan := by
  have hfive : (finite false 15 3).value = .finite (5 : ℕ) := by
    rw [value_finite]
    norm_num [signed]
  have hgreat : (finite false 2002 2).value = .finite (1001 : ℕ) := by
    rw [value_finite]
    norm_num [signed]
  obtain ⟨hends, -, hvalue, -⟩ :=
    factorial_ends_with_exact_value (f := finite false 15 3) (by decide)
  obtain ⟨-, -, hinfinite, -⟩ :=
    factorial_ends_with_exact_value (f := finite false 2002 2) (by decide)
  obtain ⟨-, -, -, hnegative⟩ :=
    factorial_ends_with_exact_value (f := finite true 4 2) (by decide)
  obtain ⟨-, -, -, hbroken⟩ :=
    factorial_ends_with_exact_value (f := finite false 9 2) (by decide)
  refine ⟨by decide, hfive, (hends _).2 rfl, ?_, ?_, hnegative fun n h => ?_, hbroken fun n h => ?_⟩
  · have hproduct : Nat.factorial 5 = 120 := rfl
    rw [hvalue 5 hfive, if_pos (by decide), hproduct, Nat.cast_ofNat]
  · rw [hinfinite 1001 hgreat, if_neg (by decide)]
  · have hneg : (-2 : ℚ) = n := by
      rw [value_finite, Extended.finite.injEq] at h
      rw [← h]
      norm_num [signed]
    have hpos : (0 : ℚ) ≤ n := Nat.cast_nonneg n
    linarith
  · have hhalf : (9 : ℚ) = 2 * n := by
      rw [value_finite, Extended.finite.injEq] at h
      rw [← h]
      norm_num [signed]
    have hnat : 9 = 2 * n := by exact_mod_cast hhalf
    omega

end Fraction

end Formula
