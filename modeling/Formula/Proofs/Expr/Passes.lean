import Formula.Expr.Simplify
import Formula.Proofs.Expr.Basic
import Mathlib.Logic.Function.Iterate
import Mathlib.Tactic.SplitIfs

/-!
# Passes

A pass over a tree of constants comes to the value of the tree, if it has one (`simplified_of_evaluate`).

A pass has a result unless an operation overflows in it. So a number of passes has a result if nothing
overflows in any of them, and then it is that of the total passes (`passes?_eq_some_iff`).
-/

namespace Formula.Expr

variable {a b e t : Expr} {op : BinaryOp} {v w r x : Value} {n m : ℕ}

/-! ## Passes over constants -/

theorem exists_constant (h : a.constant?.isSome = true) : ∃ v, a = constant v := by
  cases a with
  | constant v => exact ⟨v, rfl⟩
  | _ => cases h

theorem folded_unary (op : UnaryOp) (v : Value) :
    (unary op (constant v)).folded = constant (op.apply v) := rfl

theorem folded_binary_of_some (h : op.evaluate? v w = some r) :
    (binary op (constant v) (constant w)).folded = constant r := by
  simp only [folded, evaluate, h]

theorem simplified_unary_of_constant (op : UnaryOp) (ha : a.simplified = constant v) :
    (unary op a).simplified = constant (op.apply v) := by
  rw [simplified, ha]
  exact folded_unary op v

theorem simplified_binary_of_constants (ha : a.simplified = constant v)
    (hb : b.simplified = constant w) (h : op.evaluate? v w = some r) :
    (binary op a b).simplified = constant r := by
  rw [simplified, ha, hb]
  exact folded_binary_of_some h

theorem simplified_of_evaluate (he : e.isConstant = true) (h : e.evaluate x = .ok v) :
    e.simplified = constant v := by
  induction e generalizing v with
  | constant u =>
    cases h
    rfl
  | unary op a ih =>
    obtain ⟨u, hu, rfl⟩ := evaluate_unary h
    exact simplified_unary_of_constant op (ih he hu)
  | binary op a b iha ihb =>
    obtain ⟨ha, hb⟩ := Bool.and_eq_true_iff.1 he
    obtain ⟨u, w, hu, hw, hv⟩ := evaluate_binary h
    exact simplified_binary_of_constants (iha ha hu) (ihb hb hw) hv
  | _ => cases he

/-! ## Repeated passes -/

theorem simplified?_eq_none_iff : e.simplified? = none ↔ e.passFits = false := by
  unfold simplified?
  split_ifs with h <;> simp [h]

theorem passes?_eq_some_iff :
    passes? n e = some t ↔ (∀ j < n, (simplified^[j] e).passFits = true) ∧ simplified^[n] e = t := by
  induction n generalizing e with
  | zero => simp [passes?]
  | succ n ih =>
    rw [passes?, Option.bind_eq_some_iff, Function.iterate_succ_apply]
    constructor
    · rintro ⟨s, hs, hn⟩
      obtain ⟨hfits, rfl⟩ := simplified?_eq_some.1 hs
      obtain ⟨hall, rfl⟩ := ih.1 hn
      refine ⟨fun j hj => ?_, rfl⟩
      cases j with
      | zero => exact hfits
      | succ j => exact hall j (Nat.lt_of_succ_lt_succ hj)
    · rintro ⟨hall, rfl⟩
      refine ⟨e.simplified, simplified?_eq_some.2 ⟨hall 0 n.succ_pos, rfl⟩, ih.2 ⟨fun j hj => ?_, rfl⟩⟩
      exact hall (j + 1) (Nat.succ_lt_succ hj)

theorem exists_passes?_iff :
    (∃ t, passes? n e = some t) ↔ ∀ j < n, (simplified^[j] e).passFits = true := by
  constructor
  · rintro ⟨t, ht⟩
    exact (passes?_eq_some_iff.1 ht).1
  · exact fun h => ⟨_, passes?_eq_some_iff.2 ⟨h, rfl⟩⟩

/-- Passes go on from a tree that passes have reached. -/
theorem passes?_add (h : passes? n e = some t) : passes? (n + m) e = passes? m t := by
  induction n generalizing e with
  | zero =>
    cases h
    rw [Nat.zero_add]
  | succ n ih =>
    obtain ⟨s, hs, hn⟩ := Option.bind_eq_some_iff.1 h
    rw [Nat.succ_add, passes?, hs, Option.bind_some]
    exact ih hn

theorem passes?_of_fixed (h : t.simplified? = some t) (n : ℕ) : passes? n t = some t := by
  induction n with
  | zero => rfl
  | succ n ih => rw [passes?, h, Option.bind_some, ih]

/-- If no pass overflows, the simplification comes to an end. -/
theorem fixedPoint?_of_passFits (h : ∀ j, (simplified^[j] e).passFits = true) :
    e.fixedPoint? = some e.fixedPoint := by
  have hfits (n : ℕ) : Simplification.fits n e = true := by
    induction n generalizing e with
    | zero => rfl
    | succ n ih =>
      have hrest := ih (e := e.simplified) fun j => h (j + 1)
      rw [Simplification.fits, show e.passFits = true from h 0, hrest, Bool.or_true]
      rfl
  rw [fixedPoint?, simplification?, if_pos (hfits _)]
  rfl

end Formula.Expr
