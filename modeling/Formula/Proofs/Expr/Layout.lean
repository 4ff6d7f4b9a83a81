import Formula.Expr.Text
import Formula.Proofs.Assembly.TierOrder
import Formula.Proofs.Expr.Basic

/-!
# Layouts of expressions

The `layout` of an expression over literals is the tree that its text is assembled to. Parentheses and
arguments become operands of their own, and what stands outside of them follows the order of the tiers
(`inOrder_layout`): where the strength of an operand does not guarantee this, there are parentheses. One
sign does not apply to all that stands before it. The factorial of a remainder or of a logarithm is
written without parentheses, as in `mod(a, b)!`, while these operators are applied after factorials: its
layout is that of `mod(a, b!)`.
-/

namespace Formula

open Assembly

/-! ## Operators by their texts -/

namespace UnaryOp

theorem written_cases (op : UnaryOp) : op = negate ∨ op = factorial ∨ IsFunction op := by
  cases op <;> simp [IsFunction]

end UnaryOp

namespace BinaryOp

/-- The operators that stand before their operands and are applied after factorials. -/
def IsLate (op : BinaryOp) : Prop :=
  op = modulo ∨ op = logBase

instance : DecidablePred IsLate :=
  fun op => inferInstanceAs (Decidable (op = modulo ∨ op = logBase))

theorem position_sum {op : BinaryOp} (hop : op = sum ∨ op = difference) :
    op.position = .betweenOperands := by
  rcases hop with rfl | rfl <;> rfl

theorem position_product {op : BinaryOp} (hop : op = product ∨ op = quotient) :
    op.position = .betweenOperands := by
  rcases hop with rfl | rfl <;> rfl

theorem written_cases (op : BinaryOp) :
    (op = sum ∨ op = difference) ∨ (op = product ∨ op = quotient) ∨ op = power ∨
      op.position = .beforeOperands := by
  cases op <;> simp [position]

end BinaryOp

namespace Expr

/-- Built by operators over finite fractions that are not negative. -/
inductive OverLiterals : Expr → Prop
  | literal {f : Fraction} (hf : f.WellFormed) (hfinite : f.isFinite = true)
      (hsign : f.isNegative = false) : OverLiterals (constant (.fraction f))
  | unary {op : UnaryOp} {x : Expr} (hx : OverLiterals x) : OverLiterals (unary op x)
  | binary {op : BinaryOp} {a b : Expr} (ha : OverLiterals a) (hb : OverLiterals b) :
      OverLiterals (binary op a b)

variable {e x a b : Expr}

/-! ## Layouts -/

/-- The tree of an operand, which parentheses turn into a leaf. -/
def part (least : ℕ) (x : Expr) (t : Tree) : Tree :=
  if x.strength < least then .leaf t.expr else t

/-- The tree with a factorial sign behind its text. -/
def withFactorial : Tree → Tree
  | .binary op x y =>
    if op.IsLate then .binary op x (.unary .factorial y) else .unary .factorial (.binary op x y)
  | t => .unary .factorial t

/-- The tree that the text of an expression is assembled to. -/
def layout : Expr → Tree
  | constant (.fraction f) => .leaf (constant (.fraction f.simplified))
  | unary op x =>
    match op with
    | .negate => .unary .negate (part 4 x x.layout)
    | .factorial => withFactorial (part 6 x x.layout)
    | op => .unary op (.leaf x.layout.expr)
  | binary op a b =>
    match op with
    | .sum | .difference => .binary op a.layout (part 2 b b.layout)
    | .product | .quotient => .binary op (part 2 a a.layout) (part 3 b b.layout)
    | .power => .binary .power (part 5 a a.layout) (part 5 b b.layout)
    | op => .binary op (.leaf a.layout.expr) (.leaf b.layout.expr)
  | e => .leaf e

theorem expr_part (least : ℕ) (x : Expr) (t : Tree) : (part least x t).expr = t.expr := by
  unfold part
  split_ifs <;> rfl

theorem reading_withFactorial (t : Tree) :
    (withFactorial t).reading = t.reading ++ [pending (.unary .factorial)] := by
  cases t with
  | leaf e => rfl
  | unary op x => rfl
  | binary op x y =>
    rw [withFactorial]
    split_ifs with hop
    · have hpos : op.position = .beforeOperands := by rcases hop with rfl | rfl <;> rfl
      rw [Tree.reading_binary_before _ _ hpos, Tree.reading_binary_before _ _ hpos,
        Tree.reading_unary_after _ rfl]
      simp
    · rfl

theorem layout_function {op : UnaryOp} (hop : IsFunction op) (x : Expr) :
    (unary op x).layout = .unary op (.leaf x.layout.expr) := by
  cases op <;> first | rfl | simp [IsFunction] at hop

theorem layout_sum {op : BinaryOp} (hop : op = .sum ∨ op = .difference) (a b : Expr) :
    (binary op a b).layout = .binary op a.layout (part 2 b b.layout) := by
  rcases hop with rfl | rfl <;> rfl

theorem layout_product {op : BinaryOp} (hop : op = .product ∨ op = .quotient) (a b : Expr) :
    (binary op a b).layout = .binary op (part 2 a a.layout) (part 3 b b.layout) := by
  rcases hop with rfl | rfl <;> rfl

theorem layout_pair {op : BinaryOp} (hop : op.position = .beforeOperands) (a b : Expr) :
    (binary op a b).layout = .binary op (.leaf a.layout.expr) (.leaf b.layout.expr) := by
  cases op <;> first | rfl | cases hop

/-! ## Order -/

theorem height_withFactorial_le (t : Tree) : (withFactorial t).height ≤ 8 := by
  have hfactorial (t : Tree) : (Tree.unary .factorial t).height ≤ 8 := by
    show 5 ≤ 8
    decide
  cases t with
  | leaf e => exact hfactorial _
  | unary op x => exact hfactorial _
  | binary op x y =>
    rw [withFactorial]
    split_ifs with hop
    · rcases hop with rfl | rfl
      · show 6 ≤ 8
        decide
      · exact Nat.le_refl 8
    · exact hfactorial _

theorem height_pair_le {op : BinaryOp} (hop : op.position = .beforeOperands) (x y : Tree) :
    (Tree.binary op x y).height ≤ 8 := by
  have hheight : (Tree.binary op x y).height = 2 * op.tier.rank + 0 :=
    congrArg (2 * op.tier.rank + ·) (if_pos hop)
  have hrank : op.tier.rank ≤ 4 := by
    cases op <;> first | decide | cases hop
  rw [hheight]
  exact Nat.mul_le_mul_left 2 hrank

theorem height_function_le {op : UnaryOp} (hop : IsFunction op) (x : Tree) :
    (Tree.unary op x).height ≤ 8 := by
  have hheight : (Tree.unary op x).height = 2 * op.tier.rank + 0 :=
    congrArg (2 * op.tier.rank + ·) (if_pos hop.position_eq)
  rw [hheight, hop.tier_eq]
  decide

/-- The strength of a text bounds the tiers up to which it is put together. All that is stronger than
powers is below them. -/
theorem height_layout_le (he : e.OverLiterals) (h : 2 ≤ e.strength) :
    e.layout.height + min e.strength 5 ≤ 13 := by
  have hstrong {e : Expr} (h : e.layout.height ≤ 8) : e.layout.height + min e.strength 5 ≤ 13 := by
    omega
  cases he with
  | literal =>
    apply hstrong
    show 1 ≤ 8
    decide
  | @unary op x hx =>
    rcases op.written_cases with rfl | rfl | hop
    · show 10 + min 3 5 ≤ 13
      decide
    · exact hstrong (height_withFactorial_le _)
    · apply hstrong
      rw [layout_function hop]
      exact height_function_le hop _
  | @binary op a b ha hb =>
    rcases op.written_cases with (rfl | rfl) | (rfl | rfl) | rfl | hop
    · exact absurd h (Nat.lt_irrefl 1)
    · exact absurd h (Nat.lt_irrefl 1)
    · show 11 + min 2 5 ≤ 13
      decide
    · show 11 + min 2 5 ≤ 13
      decide
    · show 9 + min 4 5 ≤ 13
      decide
    · apply hstrong
      rw [layout_pair hop]
      exact height_pair_le hop _ _

theorem height_part_le {least : ℕ} (hx : x.OverLiterals) (hlow : 2 ≤ least) (hhigh : least ≤ 5) :
    (part least x x.layout).height + least ≤ 13 := by
  unfold part
  split_ifs with hstrength
  · have hleaf : (Tree.leaf x.layout.expr).height = 1 := rfl
    omega
  · have hheight := height_layout_le hx (by omega)
    omega

theorem inOrder_part (least : ℕ) (h : x.layout.InOrder) : (part least x x.layout).InOrder := by
  unfold part
  split_ifs
  · exact .leaf h.isResolved
  · exact h

/-- A factorial sign stands behind parentheses, a literal, or arguments. -/
theorem part_six_cases (hx : x.OverLiterals) :
    part 6 x x.layout = .leaf x.layout.expr ∨
      (∃ op y, IsFunction op ∧ part 6 x x.layout = .unary op (.leaf y)) ∨
      ∃ op a b, op.position = .beforeOperands ∧ x = binary op a b ∧
        part 6 x x.layout = .binary op (.leaf a.layout.expr) (.leaf b.layout.expr) := by
  by_cases hstrength : x.strength < 6
  · exact .inl (if_pos hstrength)
  · have hpart : part 6 x x.layout = x.layout := if_neg hstrength
    rw [hpart]
    cases hx with
    | literal => exact .inl rfl
    | @unary op y hy =>
      rcases op.written_cases with rfl | rfl | hop
      · simp [strength] at hstrength
      · simp [strength] at hstrength
      · exact .inr (.inl ⟨op, _, hop, layout_function hop y⟩)
    | @binary op a b ha hb =>
      rcases op.written_cases with (rfl | rfl) | (rfl | rfl) | rfl | hop
      iterate 5 simp [strength] at hstrength
      exact .inr (.inr ⟨op, a, b, hop, rfl, layout_pair hop a b⟩)

theorem inOrder_withFactorial (hx : x.OverLiterals) (h : x.layout.InOrder) :
    (withFactorial (part 6 x x.layout)).InOrder := by
  have hpart : (part 6 x x.layout).InOrder := inOrder_part 6 h
  rcases part_six_cases hx with heq | ⟨op, y, hop, heq⟩ | ⟨op, a, b, hop, rfl, heq⟩
  · rw [heq] at hpart ⊢
    exact .unary hpart (Nat.zero_lt_succ 1)
  · rw [heq] at hpart ⊢
    refine .unary hpart ?_
    show op.tier.rank < 2
    rw [hop.tier_eq]
    decide
  · rw [heq] at hpart ⊢
    rw [withFactorial]
    cases hpart with
    | between hpos => cases hpos.symm.trans hop
    | leading _ ha hb hapos hbpos =>
      split_ifs with hlate
      · refine .leading hop ha (.unary hb (Nat.zero_lt_succ 1)) hapos ?_
        show 2 < op.tier.rank
        rcases hlate with rfl | rfl <;> decide
      · refine .unary (.leading hop ha hb hapos hbpos) ?_
        show op.tier.rank < 2
        cases op <;> first | decide | exact absurd (by decide) hlate | cases hop

/-- The layout of an expression is in the order of the tiers. -/
theorem inOrder_layout (he : e.OverLiterals) : e.layout.InOrder := by
  induction he with
  | literal => exact .leaf rfl
  | @unary op x hx ih =>
    rcases op.written_cases with rfl | rfl | hop
    · have hheight : (part 4 x x.layout).height + 4 ≤ 13 :=
        height_part_le hx (by decide) (by decide)
      refine .unary (inOrder_part 4 ih) (Tree.rank_lt_of_height_lt ?_)
      show _ < 10
      omega
    · exact inOrder_withFactorial hx ih
    · rw [layout_function hop]
      refine .unary (.leaf ih.isResolved) ?_
      show 0 < op.tier.rank
      rw [hop.tier_eq]
      decide
  | @binary op a b ha hb iha ihb =>
    rcases op.written_cases with hop | hop | rfl | hop
    · have htier : op.tier.rank = 6 := by rcases hop with rfl | rfl <;> rfl
      have hleft : a.layout.height ≤ 13 := a.layout.height_le
      have hright : (part 2 b b.layout).height + 2 ≤ 13 :=
        height_part_le hb (by decide) (by decide)
      rw [layout_sum hop]
      exact .between_of_height (BinaryOp.position_sum hop) iha (inOrder_part 2 ihb) (by omega)
        (by omega)
    · have htier : op.tier.rank = 5 := by rcases hop with rfl | rfl <;> rfl
      have hleft : (part 2 a a.layout).height + 2 ≤ 13 := height_part_le ha (by decide) (by decide)
      have hright : (part 3 b b.layout).height + 3 ≤ 13 := height_part_le hb (by decide) (by decide)
      rw [layout_product hop]
      exact .between_of_height (BinaryOp.position_product hop) (inOrder_part 2 iha)
        (inOrder_part 3 ihb) (by omega) (by omega)
    · have htier : BinaryOp.power.tier.rank = 4 := rfl
      have hleft : (part 5 a a.layout).height + 5 ≤ 13 := height_part_le ha (by decide) (by decide)
      have hright : (part 5 b b.layout).height + 5 ≤ 13 := height_part_le hb (by decide) (by decide)
      exact .between_of_height rfl (inOrder_part 5 iha) (inOrder_part 5 ihb) (by omega) (by omega)
    · have htier : 0 < op.tier.rank := by cases op <;> decide
      rw [layout_pair hop]
      exact .leading hop (.leaf iha.isResolved) (.leaf ihb.isResolved) htier htier

/-! ## Expressions of layouts -/

theorem expr_layout_unary {op : UnaryOp} (hop : op ≠ .factorial) (x : Expr) :
    (unary op x).layout.expr = unary op x.layout.expr := by
  rcases op.written_cases with rfl | rfl | hop
  · exact congrArg (unary .negate) (expr_part 4 x x.layout)
  · exact absurd rfl hop
  · rw [layout_function hop]
    rfl

theorem expr_layout_binary (op : BinaryOp) (a b : Expr) :
    (binary op a b).layout.expr = binary op a.layout.expr b.layout.expr := by
  rcases op.written_cases with hop | hop | rfl | hop
  · rw [layout_sum hop, Tree.expr, expr_part]
  · rw [layout_product hop, Tree.expr, expr_part, expr_part]
  · exact congrArg₂ (binary .power) (expr_part 5 a a.layout) (expr_part 5 b b.layout)
  · rw [layout_pair hop]
    rfl

/-- The sign behind an operator that is applied after factorials belongs to its second operand. -/
theorem expr_layout_factorial_of_isLate {op : BinaryOp} (hop : op.IsLate) (a b : Expr) :
    (unary .factorial (binary op a b)).layout.expr =
      binary op a.layout.expr (unary .factorial b.layout.expr) := by
  rcases hop with rfl | rfl <;> rfl

theorem expr_layout_factorial (hx : x.OverLiterals)
    (hlate : ∀ op a b, x = binary op a b → ¬ op.IsLate) :
    (unary .factorial x).layout.expr = unary .factorial x.layout.expr := by
  have hpart : (part 6 x x.layout).expr = x.layout.expr := expr_part 6 x x.layout
  show (withFactorial (part 6 x x.layout)).expr = _
  rcases part_six_cases hx with heq | ⟨op, y, -, heq⟩ | ⟨op, a, b, -, hx, heq⟩
  · rw [heq]
    rfl
  · rw [← hpart, heq]
    rfl
  · rw [← hpart, heq, withFactorial, if_neg (hlate op a b hx)]
    rfl

/-- The layout of an expression has the same expression, up to fractions in lowest terms, if and only if
no factorial is taken of an operator that is applied later. -/
theorem expr_layout_beq_iff (he : e.OverLiterals) :
    (e.layout.expr == e) = true ↔
      ∀ op a b, unary .factorial (binary op a b) ∈ e.subexpressions → ¬ op.IsLate := by
  induction he with
  | @literal f hf hfinite hsign =>
    have hbeq : (f.simplified == f) = true := by
      rw [Fraction.beq_iff (Fraction.wellFormed_simplified hf) hf, Fraction.value_simplified hf]
      refine ⟨rfl, fun hnan => ?_⟩
      cases f with
      | finite => cases hnan
      | infinite => cases hnan
      | nan => cases hfinite
    exact iff_of_true (Bool.or_eq_true_iff.2 (.inl hbeq)) (by simp [subexpressions])
  | @unary op x hx ih =>
    by_cases hop : op = .factorial
    · subst hop
      by_cases hlate : ∃ op a b, x = binary op a b ∧ op.IsLate
      · obtain ⟨op, a, b, rfl, hlate⟩ := hlate
        rw [expr_layout_factorial_of_isLate hlate]
        refine iff_of_false (by exact nofun) fun h => h op a b List.mem_cons_self hlate
      · have hnot : ∀ op a b, x = binary op a b → ¬ op.IsLate := fun op a b heq hop =>
          hlate ⟨op, a, b, heq, hop⟩
        rw [expr_layout_factorial hx hnot, beq_unary, ih]
        refine ⟨fun h op a b hmem => ?_, fun h op a b hmem => h op a b (.tail _ hmem)⟩
        rcases List.mem_cons.1 hmem with heq | hmem
        · cases heq
          exact hnot op a b rfl
        · exact h op a b hmem
    · rw [expr_layout_unary hop, beq_unary, ih]
      refine ⟨fun h op' a b hmem => ?_, fun h op a b hmem => h op a b (.tail _ hmem)⟩
      rcases List.mem_cons.1 hmem with heq | hmem
      · cases heq
        exact absurd rfl hop
      · exact h op' a b hmem
  | @binary op a b ha hb iha ihb =>
    rw [expr_layout_binary, beq_binary, Bool.and_eq_true, iha, ihb]
    simp only [subexpressions, List.mem_cons, List.mem_append, reduceCtorEq, false_or, or_imp,
      forall_and]

end Expr

end Formula
