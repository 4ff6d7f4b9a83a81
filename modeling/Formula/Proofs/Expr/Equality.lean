import Formula.Expr.Simplify
import Formula.Proofs.Expr.Fingerprint

/-!
# Equality of trees

Two trees are compared node for node, without a look at the kinds of their operators. This comes to the
same as comparing first the shapes, in which each operator has its kind, and then the `leaves` from left
to right (`sameTree_iff`), both for `==` and for `isIdentical`. So what holds of the comparison of two
leaves holds of that of two trees. `isIdentical` is symmetric and transitive, and it tells a tree from
itself if and only if a coefficient of a polynomial is NaN: NaN constants are taken for themselves, NaN
coefficients are not (`isIdentical_self_iff`). Passes that leave such a tree as it is are never seen to
have come to rest (`run_of_unrecognised`).
-/

namespace Formula

open List (Forall₂)

/-! ## Leaves of a tree -/

namespace Descriptor

/-- The number of constants and polynomials. -/
def leafCount : Descriptor → ℕ
  | constant _ => 1
  | poly _ => 1
  | unary _ _ operand => operand.leafCount
  | binary _ _ left right => left.leafCount + right.leafCount
  | var .. => 0
  | hole => 0

end Descriptor

namespace Expr

variable {a b c e : Expr} {nanEqual : Bool}

/-- The constants and polynomials from left to right. -/
def leaves : Expr → List Leaf
  | constant v => [.constant v]
  | poly p => [.poly p]
  | unary _ operand => operand.leaves
  | binary _ left right => left.leaves ++ right.leaves
  | var .. => []
  | hole => []

/-- The shape of an expression tells how many leaves there are, and so which of them correspond. -/
theorem length_leaves (e : Expr) : e.leaves.length = e.descriptor.leafCount := by
  induction e with
  | unary op a ih => exact ih
  | binary op a b iha ihb =>
    rw [leaves, List.length_append, iha, ihb]
    rfl
  | _ => rfl

theorem wellFormed_iff : e.WellFormed ↔ ∀ l ∈ e.leaves, l.WellFormed := by
  induction e with
  | constant v =>
    rw [leaves, List.forall_mem_singleton]
    rfl
  | poly p =>
    rw [leaves, List.forall_mem_singleton]
    rfl
  | unary op a ih => exact ih
  | binary op a b iha ihb =>
    rw [leaves, List.forall_mem_append, ← iha, ← ihb]
    rfl
  | _ => simp [WellFormed, leaves]

/-! ## Comparison by shapes and leaves -/

/-- Comparing two trees node for node is comparing their shapes and then their leaves. -/
theorem sameTree_iff (a b : Expr) : sameTree nanEqual a b = true ↔
    a.descriptor = b.descriptor ∧ Forall₂ (Leaf.Matches nanEqual) a.leaves b.leaves := by
  fun_induction sameTree nanEqual a b with
  | case1 v w =>
    rw [← Leaf.matches_constant_iff, leaves, leaves, List.forall₂_cons, and_iff_left List.Forall₂.nil,
      descriptor, descriptor, Descriptor.constant.injEq]
    exact (and_iff_right_of_imp Leaf.Matches.kind_eq).symm
  | case2 a j b k => simp [descriptor, leaves]
  | case3 p q =>
    rw [← Leaf.matches_poly_iff, leaves, leaves, List.forall₂_cons, and_iff_left List.Forall₂.nil,
      descriptor, descriptor, Descriptor.poly.injEq]
    refine (and_iff_right_of_imp fun h => ?_).symm
    exact (Poly.beq_iff.1 (Leaf.matches_poly_iff.1 h)).1
  | case4 => simp [descriptor, leaves]
  | case5 f x g y ih =>
    rw [Bool.and_eq_true, beq_iff_eq, ih, ← and_assoc]
    refine and_congr_left fun _ => ?_
    simp only [descriptor, Descriptor.unary.injEq]
    constructor
    · rintro ⟨rfl, h⟩
      exact ⟨rfl, congrArg _ h, h⟩
    · rintro ⟨hop, -, h⟩
      exact ⟨hop, h⟩
  | case6 f a b g c d iha ihb =>
    rw [Bool.and_eq_true, Bool.and_eq_true, beq_iff_eq, iha, ihb, leaves, leaves]
    simp only [descriptor, Descriptor.binary.injEq]
    constructor
    · rintro ⟨⟨rfl, hac, hleft⟩, hbd, hright⟩
      exact ⟨⟨rfl, by rw [hac, hbd], hac, hbd⟩, List.rel_append hleft hright⟩
    · -- equal shapes have as many leaves, so that the lists come apart in the same place
      rintro ⟨⟨rfl, -, hac, hbd⟩, hall⟩
      have hlength : a.leaves.length = c.leaves.length := by
        rw [length_leaves, length_leaves, hac]
      obtain ⟨hleft, hright⟩ := (forall₂_append_iff hlength).1 hall
      exact ⟨⟨rfl, hac, hleft⟩, hbd, hright⟩
  | case7 s t hconstant hvar hpoly hhole hunary hbinary =>
    -- nodes of two sorts, so their shapes differ
    refine iff_of_false Bool.false_ne_true ?_
    rintro ⟨h, -⟩
    cases s with
    | constant v =>
      cases t with
      | constant w => exact hconstant v w rfl rfl
      | _ => cases h
    | var a j =>
      cases t with
      | var b k => exact hvar a j b k rfl rfl
      | _ => cases h
    | poly p =>
      cases t with
      | poly q => exact hpoly p q rfl rfl
      | _ => cases h
    | hole =>
      cases t with
      | hole => exact hhole rfl rfl
      | _ => cases h
    | unary f x =>
      cases t with
      | unary g y => exact hunary f x g y rfl rfl
      | _ => cases h
    | binary f a b =>
      cases t with
      | binary g c d => exact hbinary f a b g c d rfl rfl
      | _ => cases h

/-- Equality of expressions is equality of their shapes, kinds of operators included, together with
equality of their numbers and polynomials from left to right. -/
theorem beq_iff_descriptors_and_leaves (a b : Expr) : (a == b) = true ↔
    a.descriptor = b.descriptor ∧ Forall₂ (fun l m => (l == m) = true) a.leaves b.leaves := by
  have hmatches : Leaf.Matches false = fun l m => (l == m) = true :=
    funext₂ fun _ _ => propext Leaf.matches_false_iff
  rw [← hmatches]
  exact sameTree_iff a b

/-! ## Identical trees -/

/-- No coefficient of a polynomial is NaN. Constants may be. -/
def KnownCoefficients (e : Expr) : Prop :=
  ∀ l ∈ e.leaves, l.Known

instance : DecidablePred KnownCoefficients :=
  fun e => inferInstanceAs (Decidable (∀ l ∈ e.leaves, l.Known))

theorem isIdentical_self_iff (e : Expr) : e.isIdentical e = true ↔ e.KnownCoefficients := by
  rw [isIdentical, sameTree_iff, and_iff_right rfl, List.forall₂_same]
  exact forall₂_congr fun l _ => l.matches_self_iff

theorem isIdentical_symm (h : a.isIdentical b = true) : b.isIdentical a = true := by
  rw [isIdentical, sameTree_iff] at h ⊢
  exact ⟨h.1.symm, forall₂_symm Leaf.Matches.symm h.2⟩

theorem isIdentical_trans (ha : a.WellFormed) (hb : b.WellFormed) (hc : c.WellFormed)
    (h : a.isIdentical b = true) (h' : b.isIdentical c = true) : a.isIdentical c = true := by
  rw [wellFormed_iff] at ha hb hc
  rw [isIdentical, sameTree_iff] at h h' ⊢
  refine ⟨h.1.trans h'.1, forall₂_trans ?_ h.2 h'.2⟩
  intro l hl m hm n hn
  exact Leaf.Matches.trans (ha l hl) (hb m hm) (hc n hn)

/-- A tree that a pass leaves as it is makes for one pass if it is recognised. -/
theorem run_of_recognised (hfixed : e.simplified = e) (h : e.isIdentical e = true) (n : ℕ) :
    Simplification.run (n + 1) e = ⟨[e], e, true⟩ := by
  rw [Simplification.run, hfixed]
  exact if_pos h

/-- A tree that a pass leaves as it is makes for all the passes there are if it is not recognised. -/
theorem run_of_unrecognised (hfixed : e.simplified = e) (h : e.isIdentical e = false) (n : ℕ) :
    Simplification.run n e = ⟨List.replicate n e, e, false⟩ := by
  induction n with
  | zero => rfl
  | succ n ih =>
    rw [Simplification.run, hfixed]
    simp only [h, ih]
    rfl

/-- `isIdentical` is symmetric and transitive on trees with well-formed fractions, whatever numbers are
NaN, and a tree is identical to itself if and only if no coefficient of a polynomial is NaN. A tree that a
pass leaves as it is ends a repeated simplification at once in this case, and in the other it is passed
over again and again, as often as there are passes. -/
theorem isIdentical_of_wellFormed (ha : a.WellFormed) (hb : b.WellFormed) (hc : c.WellFormed) :
    (a.isIdentical a = true ↔ a.KnownCoefficients) ∧
    (a.isIdentical b = true → b.isIdentical a = true) ∧
    (a.isIdentical b = true → b.isIdentical c = true → a.isIdentical c = true) ∧
    (a.simplified = a → a.KnownCoefficients → a.simplification = ⟨[a], a, true⟩) ∧
    (a.simplified = a → ¬ a.KnownCoefficients →
      a.simplification = ⟨List.replicate Simplification.maxPasses a, a, false⟩) := by
  refine ⟨isIdentical_self_iff a, isIdentical_symm, isIdentical_trans ha hb hc,
    fun hfixed hknown => ?_, fun hfixed hunknown => ?_⟩
  · exact run_of_recognised hfixed ((isIdentical_self_iff a).2 hknown) _
  · refine run_of_unrecognised hfixed ?_ _
    rwa [← isIdentical_self_iff, Bool.not_eq_true] at hunknown

/-- The sum of NaN and `x / 2`, with the coefficient in three different terms. -/
theorem isIdentical_of_unreduced_sums :
    let sum (n d : ℕ) := binary .sum (constant (.fraction .nan))
      (poly (.fraction ⟨[(1, .finite false n d)]⟩))
    (sum 2 4).isIdentical (sum 2 4) = true ∧ (sum 3 6).isIdentical (sum 2 4) = true ∧
      (sum 2 4).isIdentical (sum 1 2) = true ∧ (sum 2 4).simplification = ⟨[sum 2 4], sum 2 4, true⟩ := by
  intro sum
  have h : (sum 2 4).isIdentical (sum 3 6) = true := by decide
  have h' : (sum 3 6).isIdentical (sum 1 2) = true := by decide
  have hknown : (sum 2 4).KnownCoefficients := by decide
  have hfixed : (sum 2 4).simplified = sum 2 4 := by with_unfolding_all rfl
  obtain ⟨hself, hsymm, htrans, hrun, -⟩ :=
    isIdentical_of_wellFormed (a := sum 2 4) (b := sum 3 6) (c := sum 1 2)
      (by decide) (by decide) (by decide)
  exact ⟨hself.2 hknown, hsymm h, htrans h h', hrun hfixed hknown⟩

/-- The polynomial `NaN * x` is not identical to itself, although no pass changes it. -/
theorem isIdentical_of_nan_coefficient :
    let e := poly (.fraction ⟨[(1, .nan)]⟩)
    e.WellFormed ∧ e.simplified = e ∧ e.isIdentical e = false ∧
      e.simplification.passes.length = Simplification.maxPasses ∧
      e.simplification.converged = false := by
  intro e
  have hfixed : e.simplified = e := rfl
  have hself : e.isIdentical e = false := by decide
  have hrun : e.simplification = ⟨List.replicate Simplification.maxPasses e, e, false⟩ :=
    run_of_unrecognised hfixed hself Simplification.maxPasses
  refine ⟨by decide, hfixed, hself, ?_, ?_⟩
  · rw [hrun, List.length_replicate]
  · rw [hrun]

end Expr

end Formula
