import Formula.Proofs.Expr.Overflow
import Mathlib.Algebra.Ring.Int.Defs
import Mathlib.Logic.Relation
import Mathlib.Order.WellFounded
import Mathlib.Tactic.SplitIfs

/-!
# Simplification comes to rest

`Rewrites` lists the rewrites of simplification and leaves open what numbers, tests and bounds say:
any number may come out of an operation, and any answer to a question about numbers, trees or signs.
A pass is a sequence of such rewrites (`rewritesTo_simplified`). Each of them lowers the `weight` of a
tree, in which an absolute value weighs as much as the two negations it can turn into, and a
difference or quotient more than what replaces it. So no rewrites lead back to where they started,
and repeated passes come to rest on every tree, unless an operation overflows in one of them
(`passes_come_to_rest_or_overflow`). This does not happen as long as the powers stay `Within` 64 bits.
-/

namespace Formula

open Relation
open Fraction (wordBound)

/-! ## Weights -/

def UnaryOp.weight : UnaryOp → Nat
  | abs => 3
  | _ => 1

def BinaryOp.weight : BinaryOp → Nat
  | difference => 3
  | quotient => 2
  | _ => 1

namespace Expr

/-- The sum of the weights of all nodes. -/
def weight : Expr → Nat
  | unary op operand => op.weight + operand.weight
  | binary op left right => op.weight + left.weight + right.weight
  | _ => 1

theorem one_le_weight (e : Expr) : 1 ≤ e.weight := by
  cases e with
  | unary op operand => cases op <;> simp only [weight, UnaryOp.weight] <;> omega
  | binary op left right => cases op <;> simp only [weight, BinaryOp.weight] <;> omega
  | _ => exact le_refl 1

/-! ## Rewrites -/

/-- The expression, under a negation if asked for. -/
def negatedIf (negative : Bool) (e : Expr) : Expr :=
  if negative then unary .negate e else e

/-- One rewrite somewhere in a tree, for whatever numbers, equalities and signs. -/
inductive Rewrites : Expr → Expr → Prop
  | unary_constant (op : UnaryOp) (a : Expr) (v : Value) : Rewrites (unary op a) (constant v)
  | unary_poly (op : UnaryOp) (a : Expr) (p : Poly) : Rewrites (unary op a) (poly p)
  | unary_operand (op : UnaryOp) (a : Expr) : Rewrites (unary op a) a
  | binary_constant (op : BinaryOp) (a b : Expr) (v : Value) :
      Rewrites (binary op a b) (constant v)
  | binary_poly (op : BinaryOp) (a b : Expr) (p : Poly) : Rewrites (binary op a b) (poly p)
  | binary_left (op : BinaryOp) (a b : Expr) : Rewrites (binary op a b) a
  | binary_right (op : BinaryOp) (a b : Expr) : Rewrites (binary op a b) b
  /-- `a - b = a + -b` -/
  | difference (a b : Expr) :
      Rewrites (binary .difference a b) (binary .sum a (unary .negate b))
  /-- `(a / b) / c = a / (b * c)` -/
  | quotient_quotient (a b c : Expr) :
      Rewrites (binary .quotient (binary .quotient a b) c)
        (binary .quotient a (binary .product b c))
  /-- `(a / b) / a = 1 / b` -/
  | quotient_cancel (a b c : Expr) (v : Value) :
      Rewrites (binary .quotient (binary .quotient a b) c) (binary .quotient (constant v) b)
  | abs_negate (a : Expr) : Rewrites (unary .abs a) (unary .negate a)
  /-- `|a * b| = |a| * |b|` for operands of known signs, and the same for other operators -/
  | abs_binary (op : BinaryOp) (a b : Expr) (l r : Bool) :
      Rewrites (unary .abs (binary op a b)) (binary op (negatedIf l a) (negatedIf r b))
  | inside_unary {a b : Expr} (op : UnaryOp) (h : Rewrites a b) : Rewrites (unary op a) (unary op b)
  | inside_left {a b : Expr} (op : BinaryOp) (c : Expr) (h : Rewrites a b) :
      Rewrites (binary op a c) (binary op b c)
  | inside_right {a b : Expr} (op : BinaryOp) (c : Expr) (h : Rewrites a b) :
      Rewrites (binary op c a) (binary op c b)

/-- Any number of rewrites. -/
abbrev RewritesTo : Expr → Expr → Prop :=
  ReflTransGen Rewrites

variable {a b c d e t : Expr} {n : ℕ}

theorem weight_negatedIf_le (negative : Bool) (e : Expr) :
    (negatedIf negative e).weight ≤ e.weight + 1 := by
  unfold negatedIf
  split_ifs
  · simp only [weight, UnaryOp.weight]
    omega
  · omega

theorem Rewrites.weight_lt (h : Rewrites a b) : b.weight < a.weight := by
  induction h with
  | unary_constant op a | unary_poly op a | unary_operand op a =>
    have := one_le_weight a
    have : 1 ≤ op.weight := by cases op <;> decide
    simp only [weight]
    omega
  | binary_constant op a b | binary_poly op a b | binary_left op a b | binary_right op a b =>
    have := one_le_weight a
    have := one_le_weight b
    simp only [weight]
    omega
  | difference | quotient_quotient | abs_negate =>
    simp only [weight, UnaryOp.weight, BinaryOp.weight]
    omega
  | quotient_cancel a _ c =>
    have := one_le_weight c
    simp only [weight, BinaryOp.weight]
    omega
  | abs_binary op a b l r =>
    have := weight_negatedIf_le l a
    have := weight_negatedIf_le r b
    simp only [weight, UnaryOp.weight]
    omega
  | inside_unary _ _ ih | inside_left _ _ _ ih | inside_right _ _ _ ih =>
    simp only [weight]
    omega

namespace RewritesTo

theorem eq_or_weight_lt (h : RewritesTo a b) : b = a ∨ b.weight < a.weight := by
  induction h with
  | refl => exact .inl rfl
  | tail _ hstep ih =>
    have := hstep.weight_lt
    right
    obtain rfl | hlt := ih <;> omega

theorem unary (op : UnaryOp) (h : RewritesTo a b) : RewritesTo (.unary op a) (.unary op b) :=
  h.lift _ fun _ _ => .inside_unary op

theorem binary (op : BinaryOp) (h : RewritesTo a b) (h' : RewritesTo c d) :
    RewritesTo (.binary op a c) (.binary op b d) :=
  (h.lift (Expr.binary op · c) fun _ _ => .inside_left op c).trans
    (h'.lift (Expr.binary op b) fun _ _ => .inside_right op b)

end RewritesTo

/-! ## Node builders -/

theorem binary_rewritesTo_ofPoly (op : BinaryOp) (a b : Expr) (p : Poly) :
    RewritesTo (binary op a b) (ofPoly p) := by
  unfold ofPoly
  split_ifs
  · exact .single (.binary_constant op a b _)
  · exact .single (.binary_poly op a b p)

theorem rewritesTo_negateNode (e : Expr) : RewritesTo (unary .negate e) (negateNode e) := by
  unfold negateNode
  split
  · exact .single (.unary_constant _ _ _)
  · exact .tail (.single (.unary_operand _ _)) (.unary_operand _ _)
  · exact .single (.unary_poly _ _ _)
  · exact .refl

theorem rewritesTo_signedAbs (negative : Bool) (e : Expr) :
    RewritesTo (negatedIf negative e) (signedAbs negative e) := by
  unfold negatedIf signedAbs
  split_ifs
  · exact rewritesTo_negateNode e
  · exact .refl

theorem rewritesTo_sumNode (a b : Expr) : RewritesTo (binary .sum a b) (sumNode a b) := by
  unfold sumNode
  split_ifs
  · exact .single (.binary_left _ a b)
  · exact .single (.binary_right _ a b)
  · split
    · exact binary_rewritesTo_ofPoly _ a b _
    · exact .single (.binary_constant _ a b _)
  · split
    · exact binary_rewritesTo_ofPoly _ a b _
    · exact .refl
  · exact .refl

theorem binary_rewritesTo_cancelQuotient? {k : Kind} (h : cancelQuotient? k a b = some e)
    (op : BinaryOp) : RewritesTo (binary op a b) e ∧ RewritesTo (binary op b a) e := by
  unfold cancelQuotient? at h
  split at h
  · next n d =>
    split_ifs at h
    · cases h
      exact ⟨.tail (.single (.binary_left _ _ _)) (.binary_left _ _ _),
        .tail (.single (.binary_right _ _ _)) (.binary_left _ _ _)⟩
    · split at h
      · split_ifs at h
        cases h
        exact ⟨.single (.binary_constant _ _ _ _), .single (.binary_constant _ _ _ _)⟩
      · cases h
  · cases h

theorem rewritesTo_productNode (a b : Expr) :
    RewritesTo (binary .product a b) (productNode a b) := by
  unfold productNode
  split_ifs
  · exact .single (.binary_constant _ a b _)
  · exact .single (.binary_left _ a b)
  · exact .single (.binary_right _ a b)
  · split
    · exact binary_rewritesTo_ofPoly _ a b _
    · split
      · next hc => exact (binary_rewritesTo_cancelQuotient? hc _).1
      · split
        · next hc => exact (binary_rewritesTo_cancelQuotient? hc _).2
        · exact .refl
  · exact .refl

theorem rewritesTo_quotientNode (a b : Expr) :
    RewritesTo (binary .quotient a b) (quotientNode a b) := by
  unfold quotientNode
  split_ifs
  · exact .single (.binary_left _ a b)
  · exact .single (.binary_constant _ a b _)
  · split
    · exact binary_rewritesTo_ofPoly _ a b _
    · split
      · split_ifs
        · exact .single (.quotient_cancel _ _ b _)
        · exact .head (.quotient_quotient _ _ b)
            (RewritesTo.binary _ .refl (rewritesTo_productNode _ b))
      · exact .refl
  · exact .refl

theorem rewritesTo_powerNode (a b : Expr) : RewritesTo (binary .power a b) (powerNode a b) := by
  unfold powerNode
  split
  · split_ifs
    · exact .single (.binary_left _ a _)
    · exact .single (.binary_constant _ a _ _)
    · split
      · exact binary_rewritesTo_ofPoly _ a _ _
      · exact .refl
    · exact .refl
  · exact .refl

/-- An absolute value of known sign. -/
theorem abs_rewritesTo_signedAbs (negative : Bool) (e : Expr) :
    RewritesTo (unary .abs e) (signedAbs negative e) := by
  unfold signedAbs
  split_ifs
  · exact .head (.abs_negate e) (rewritesTo_negateNode e)
  · exact .single (.unary_operand _ e)

/-- An absolute value that is taken of both operands. -/
theorem abs_rewritesTo_binary (op : BinaryOp) (l r : Bool) (a b : Expr) :
    RewritesTo (unary .abs (binary op a b)) (binary op (signedAbs l a) (signedAbs r b)) :=
  .head (.abs_binary op a b l r)
    ((rewritesTo_signedAbs l a).binary op (rewritesTo_signedAbs r b))

theorem rewritesTo_absNode (e : Expr) : RewritesTo (unary .abs e) (absNode e) := by
  fun_induction absNode e with
  | case1 value => exact .single (.unary_constant _ _ _)
  | case2 operand => exact .single (.unary_operand _ _)
  | case3 operand ih => exact .head (.inside_unary _ (.unary_operand _ _)) ih
  | case4 a b => exact (abs_rewritesTo_binary _ _ _ a b).trans (rewritesTo_sumNode _ _)
  | case7 a b | case9 a b => exact abs_rewritesTo_binary _ _ _ a b
  | case11 a b => exact abs_rewritesTo_binary _ _ false a b
  | case13 => exact abs_rewritesTo_signedAbs _ _
  | _ => exact .refl

/-! ## Passes -/

theorem unary_rewritesTo_folded (op : UnaryOp) (a : Expr) :
    RewritesTo (unary op a) (unary op a).folded := by
  unfold folded
  split
  · exact .single (.unary_constant op a _)
  · exact .refl

theorem binary_rewritesTo_folded (op : BinaryOp) (a b : Expr) :
    RewritesTo (binary op a b) (binary op a b).folded := by
  unfold folded
  split
  · exact .single (.binary_constant op a b _)
  · exact .refl

theorem rewritesTo_unaryNode (op : UnaryOp) (a : Expr) :
    RewritesTo (unary op a) (unaryNode op a) := by
  unfold unaryNode
  split_ifs
  · exact unary_rewritesTo_folded op a
  · split
    · exact rewritesTo_absNode a
    · exact rewritesTo_negateNode a
    · exact .refl

theorem rewritesTo_binaryNode (op : BinaryOp) (a b : Expr) :
    RewritesTo (binary op a b) (binaryNode op a b) := by
  unfold binaryNode
  split_ifs
  · exact binary_rewritesTo_folded op a b
  · split
    · exact rewritesTo_sumNode a b
    · exact .head (.difference a b)
        ((RewritesTo.binary _ .refl (rewritesTo_negateNode b)).trans (rewritesTo_sumNode a _))
    · exact rewritesTo_productNode a b
    · exact rewritesTo_quotientNode a b
    · exact rewritesTo_powerNode a b
    · exact .refl

/-- A pass is a sequence of rewrites. -/
theorem rewritesTo_simplified (e : Expr) : RewritesTo e e.simplified := by
  induction e with
  | unary op a ih => exact (ih.unary op).trans (rewritesTo_unaryNode op _)
  | binary op a b iha ihb => exact (iha.binary op ihb).trans (rewritesTo_binaryNode op _ _)
  | _ => exact .refl

/-! ## Repeated passes -/

/-- No rewrites lead back to where they started. -/
theorem not_transGen_rewrites_self (e : Expr) : ¬ TransGen Rewrites e e := by
  intro h
  obtain ⟨b, hb, hrest⟩ := TransGen.head'_iff.1 h
  have hlt := hb.weight_lt
  rcases RewritesTo.eq_or_weight_lt hrest with rfl | hlt'
  · omega
  · omega

/-- A sequence of trees in which each is reached from the one before becomes constant. -/
theorem exists_constant_from {s : ℕ → Expr} (hs : ∀ k, RewritesTo (s k) (s (k + 1))) :
    ∃ n, ∀ m ≥ n, s m = s n := by
  -- from a tree of the least weight on, no rewrite is possible
  obtain ⟨n, hn⟩ : ∃ n, ∀ m, (s n).weight ≤ (s m).weight :=
    ⟨Function.argmin (fun k => (s k).weight), fun m => Function.argmin_le (fun k => (s k).weight) m⟩
  refine ⟨n, fun m hm => ?_⟩
  have hreach : RewritesTo (s n) (s m) := by
    induction m, hm using Nat.le_induction with
    | base => exact .refl
    | succ m _ ih => exact ih.trans (hs m)
  exact hreach.eq_or_weight_lt.resolve_right (not_lt.2 (hn m))

/-- A pass that changes a tree lowers its weight, so there are fewer of them than the tree weighs. -/
theorem exists_fixed_iterate (e : Expr) :
    ∃ n < e.weight, simplified^[n + 1] e = simplified^[n] e := by
  induction hw : e.weight using Nat.strongRecOn generalizing e with
  | ind w ih =>
    subst hw
    rcases (rewritesTo_simplified e).eq_or_weight_lt with hfixed | hlt
    · exact ⟨0, one_le_weight e, hfixed⟩
    · obtain ⟨n, hn, hfixed⟩ := ih _ hlt e.simplified rfl
      exact ⟨n + 1, by omega, hfixed⟩

/-- The passes end at a tree that a pass leaves as it is, or at one in which an operation overflows. -/
theorem exists_last_pass (e : Expr) :
    ∃ n < e.weight, ∃ t, passes? n e = some t ∧ (t.simplified? = some t ∨ t.simplified? = none) := by
  obtain ⟨n, hn, hfixed⟩ := exists_fixed_iterate e
  by_cases hfits : ∀ j ≤ n, (simplified^[j] e).passFits = true
  · refine ⟨n, hn, _, passes?_eq_some_iff.2 ⟨fun j hj => hfits j hj.le, rfl⟩, .inl ?_⟩
    rw [Function.iterate_succ_apply'] at hfixed
    exact simplified?_eq_some.2 ⟨hfits n le_rfl, hfixed⟩
  · -- the first pass that overflows is the last one
    simp only [not_forall, Bool.not_eq_true] at hfits
    obtain ⟨j, hj, hoverflow⟩ := hfits
    have hex : ∃ j, (simplified^[j] e).passFits = false := ⟨j, hoverflow⟩
    have hbefore (i : ℕ) (hi : i < Nat.find hex) : (simplified^[i] e).passFits = true :=
      Bool.eq_true_of_not_eq_false (Nat.find_min hex hi)
    refine ⟨Nat.find hex, ?_, _, passes?_eq_some_iff.2 ⟨hbefore, rfl⟩, .inr ?_⟩
    · exact (Nat.find_min' hex hoverflow).trans_lt (hj.trans_lt hn)
    · exact simplified?_eq_none_iff.2 (Nat.find_spec hex)

theorem passes?_succ (h : passes? n e = some t) : passes? (n + 1) e = t.simplified? := by
  rw [passes?_add h, passes?]
  cases t.simplified? <;> rfl

/-- The passes come to rest if and only if none of them overflows. -/
theorem exists_rest_iff :
    (∃ n t, passes? n e = some t ∧ passes? (n + 1) e = some t) ↔ ∀ n, ∃ t, passes? n e = some t := by
  constructor
  · rintro ⟨n, t, hn, hrest⟩ m
    rw [passes?_succ hn] at hrest
    rcases le_total n m with hle | hle
    · obtain ⟨k, rfl⟩ := Nat.exists_eq_add_of_le hle
      exact ⟨t, (passes?_add hn).trans (passes?_of_fixed hrest k)⟩
    · have hfits := exists_passes?_iff.1 ⟨t, hn⟩
      exact exists_passes?_iff.2 fun j hj => hfits j (by omega)
  · intro h
    obtain ⟨n, -, t, hn, hlast⟩ := exists_last_pass e
    obtain ⟨s, hs⟩ := h (n + 1)
    rw [← passes?_succ hn] at hlast
    refine ⟨n, t, hn, hlast.resolve_right ?_⟩
    rw [hs]
    exact nofun

theorem rewritesTo_of_passes? (h : passes? n e = some t) : RewritesTo e t := by
  induction n generalizing e with
  | zero =>
    cases h
    exact .refl
  | succ n ih =>
    obtain ⟨s, hs, hn⟩ := Option.bind_eq_some_iff.1 h
    obtain ⟨-, rfl⟩ := simplified?_eq_some.1 hs
    exact (rewritesTo_simplified e).trans (ih hn)

/-- Repeated simplification comes to rest on every tree, after fewer passes than the tree weighs, unless a
pass before overflows; and it comes to rest if and only if no pass overflows, which is so for every tree
whose powers stay within 64 bits. The passes consist of rewrites, and whatever numbers, tests and bounds
these see, no sequence of them goes on forever or returns to a tree. -/
theorem passes_come_to_rest_or_overflow (e : Expr) :
    (∃ n < e.weight, ∃ t, passes? n e = some t ∧
      (passes? (n + 1) e = some t ∨ passes? (n + 1) e = none)) ∧
    ((∃ n t, passes? n e = some t ∧ passes? (n + 1) e = some t) ↔
      ∀ n, ∃ t, passes? n e = some t) ∧
    (∀ d < wordBound, Within d e → ∀ n, ∃ t, passes? n e = some t) ∧
    (∀ n t, passes? n e = some t → RewritesTo e t) ∧
    (∀ s : ℕ → Expr, s 0 = e → (∀ k, RewritesTo (s k) (s (k + 1))) → ∃ n, ∀ m ≥ n, s m = s n) ∧
    ¬ TransGen Rewrites e e := by
  refine ⟨?_, exists_rest_iff, ?_, ?_, ?_, not_transGen_rewrites_self e⟩
  · obtain ⟨n, hn, t, ht, hlast⟩ := exists_last_pass e
    rw [← passes?_succ ht] at hlast
    exact ⟨n, hn, t, ht, hlast⟩
  · exact fun d hd he n => ⟨_, he.passes? hd n⟩
  · exact fun n t => rewritesTo_of_passes?
  · exact fun s _ hs => exists_constant_from hs

/-- The tower `((x ^ 64) ^ 64) ^ 2` of powers and the tree `|x - (x / 2) / 3| ^ y` over 64-bit numbers,
simplified again and again. -/
theorem passes_come_to_rest_on_powers_and_quotients :
    let power (e : Expr) (n : Int) := binary .power e (constant (.fraction (.ofInt n)))
    let e := power (power (power (poly (.identity .fraction)) 64) 64) 2
    let x := var "x" .double
    let f := binary .power (unary .abs (binary .difference x
      (binary .quotient (binary .quotient x (constant (.double 2))) (constant (.double 3)))))
      (var "y" .double)
    (∃ n t, passes? n e = some t ∧ passes? (n + 1) e = some t) ∧
      ∃ n t, passes? n f = some t ∧ passes? (n + 1) f = some t := by
  intro power e x f
  have hpower {d : ℕ} {e : Expr} {n : Int} (h : Within d e)
      (hn : (Fraction.ofInt n).exponentFits = true) : Within (polyPowerLimit * d) (power e n) :=
    .power h (.constant 0 _) (.constant fun g hg => by cases hg; exact hn) le_rfl (Nat.zero_le _)
  have hx : Within 1 (poly (.identity .fraction)) :=
    .poly (List.forall_mem_singleton.2 le_rfl)
  have he : Within (64 * (64 * (64 * 1))) e :=
    hpower (hpower (hpower hx (by decide)) (by decide)) (by decide)
  have hquotient {a b : Expr} (ha : Within 0 a) (hb : Within 0 b) : Within 0 (binary .quotient a b) :=
    .multiplied (.inr rfl) ha hb le_rfl
  have hdifference {a b : Expr} (ha : Within 0 a) (hb : Within 0 b) :
      Within 0 (binary .difference a b) :=
    .binary (by decide) ha hb
  have hbase := hdifference (.var 0 "x" .double) <|
    hquotient (hquotient (.var 0 "x" .double) (.constant 0 (.double 2))) (.constant 0 (.double 3))
  have hf : Within 0 f := .power (.unary .abs hbase) (.var 0 _ _) (.var "y" .double) le_rfl le_rfl
  obtain ⟨-, herest, hefits, -⟩ := passes_come_to_rest_or_overflow e
  obtain ⟨-, hfrest, hffits, -⟩ := passes_come_to_rest_or_overflow f
  exact ⟨herest.2 (hefits _ (by decide) he), hfrest.2 (hffits _ (by decide) hf)⟩

/-- The power of `3/2` to the exponent `-2 ^ 63` and the product of `x ^ (2 ^ 62)` with itself overflow in
the first pass. -/
theorem passes_overflow_at_least_exponent_and_power :
    let e := binary .power (constant (.fraction (.finite false 3 2)))
      (constant (.fraction (.finite true wordBound 1)))
    let p := poly (.fraction ⟨[(2 ^ 62, .one)]⟩)
    let f := binary .product p p
    (e.simplified? = none ∧ ¬ ∃ n t, passes? n e = some t ∧ passes? (n + 1) e = some t) ∧
      (f.simplified? = none ∧ ¬ ∃ n t, passes? n f = some t ∧ passes? (n + 1) f = some t) := by
  intro e p f
  have hnone {e : Expr} (h : e.simplified? = none) :
      ¬ ∃ n t, passes? n e = some t ∧ passes? (n + 1) e = some t := by
    intro hrest
    obtain ⟨t, ht⟩ := exists_rest_iff.1 hrest 1
    rw [passes?, h] at ht
    cases ht
  have he : e.simplified? = none := simplified?_eq_none_iff.2 rfl
  have hf : f.simplified? = none := simplified?_eq_none_iff.2 rfl
  exact ⟨⟨he, hnone he⟩, hf, hnone hf⟩

end Expr

end Formula
