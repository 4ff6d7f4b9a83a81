import Formula.Assembly
import Mathlib.Data.Nat.Notation
import Mathlib.Tactic.Common
import Mathlib.Tactic.SplitIfs

/-!
# Rows and their sources

While a row is assembled, each of its entries stands for a segment of the original row: a pending
operator for itself, and an operand for the segment that it was built from. `Covers P R row source`
says so, where `P` tells which operators may still be pending and `R` how operands relate to their
segments. Applying a tier keeps this invariant if the relations on the two sides of the current
position and on arguments fit together (`TierRules`); a chain of such tiers relates the tree of a row
to the whole row (`TierChain.assembled`).
-/

namespace Formula

/-! ## Entries -/

namespace Expr

theorem pendingOperator?_pending (op : Operator) : (pending op).pendingOperator? = some op := by
  cases op <;> rfl

theorem eq_pending_of_pendingOperator? {e : Expr} {op : Operator}
    (h : e.pendingOperator? = some op) : e = pending op := by
  unfold pendingOperator? at h
  split at h
  · cases h
    rfl
  · cases h
    rfl
  · cases h

theorem pendingOperator?_of_isResolved {e : Expr} (h : e.isResolved = true) :
    e.pendingOperator? = none := by
  unfold pendingOperator?
  split
  · cases h
  · cases h
  · rfl

theorem isResolved_pending (op : Operator) : (pending op).isResolved = false := by
  cases op <;> rfl

end Expr

theorem Traced.ite_build_eq_ok {α : Type} {c : Prop} [Decidable c] {node : Expr} {a b : α}
    {err : ParseError} (h : (if c then Traced.build node a else .error err).outcome = .ok b) :
    c ∧ a = b := by
  split_ifs at h with hc
  · cases h
    exact ⟨hc, rfl⟩
  · cases h

namespace Assembly

open Formula.Expr

/-! ## Steps -/

/-- What the resolution of a leading operator does: it takes one or two settled operands from the
front of the row. -/
theorem resolveLeading_cases {limit room : ℕ} {op : Operator} {row rest : List Expr} {node : Expr}
    (h : (resolveLeading limit (room + 1) op row).outcome = .ok (node, rest)) :
    ∃ x row', (settle (resolveLeading limit room) row).outcome = .ok (x :: row') ∧
      x.isResolved = true ∧
      ((∃ u, op = .unary u ∧ node = .unary u x ∧ rest = row') ∨
        ∃ b y, op = .binary b ∧ (settle (resolveLeading limit room) row').outcome = .ok (y :: rest) ∧
          y.isResolved = true ∧ node = .binary b x y) := by
  rw [resolveLeading] at h
  obtain ⟨row', hrow', h⟩ := Traced.bind_eq_ok h
  cases row' with
  | nil => cases op <;> cases h
  | cons x row' =>
    cases op with
    | unary u =>
      obtain ⟨hx, heq⟩ := Traced.ite_build_eq_ok h
      cases heq
      exact ⟨x, _, hrow', hx, .inl ⟨u, rfl, rfl, rfl⟩⟩
    | binary b =>
      obtain ⟨row'', hrow'', h⟩ := Traced.bind_eq_ok h
      cases row'' with
      | nil => cases h
      | cons y row'' =>
        obtain ⟨hxy, heq⟩ := Traced.ite_build_eq_ok h
        cases heq
        rw [Bool.and_eq_true] at hxy
        exact ⟨x, row', hrow', hxy.1, .inr ⟨b, y, rfl, hrow'', hxy.2, rfl⟩⟩

theorem resolve_zero (limit : ℕ) (op : Operator) (left right : List Expr) :
    resolve limit 0 op left right = .error (.tooDeep limit) := by
  unfold resolve
  cases op.position <;> rfl

/-- What the resolution of an operator does, by where it stands. -/
theorem resolve_cases {limit room : ℕ} {op : Operator} {left right left' right' : List Expr}
    {node : Expr} (h : (resolve limit room op left right).outcome = .ok (left', node, right')) :
    (op.position = .beforeOperands ∧ left' = left ∧
      (resolveLeading limit room op right).outcome = .ok (node, right')) ∨
    (∃ u x, op = .unary u ∧ op.position = .afterOperand ∧ left = x :: left' ∧
      x.isResolved = true ∧ node = .unary u x ∧ right' = right) ∨
    ∃ b x y room', op = .binary b ∧ op.position = .betweenOperands ∧ room = room' + 1 ∧
      left = x :: left' ∧ (settle (resolveLeading limit room') right).outcome = .ok (y :: right') ∧
      x.isResolved = true ∧ y.isResolved = true ∧ node = .binary b x y := by
  unfold resolve at h
  split at h
  · next hpos =>
    obtain ⟨⟨node', rest⟩, hlead, h⟩ := Traced.bind_eq_ok h
    cases h
    exact .inl ⟨hpos, rfl, hlead⟩
  · cases h
  · next hpos =>
    split at h
    · obtain ⟨hx, heq⟩ := Traced.ite_build_eq_ok h
      cases heq
      exact .inr (.inl ⟨_, _, rfl, hpos, rfl, hx, rfl, rfl⟩)
    · cases h
  · next room' hpos =>
    obtain ⟨row, hrow, h⟩ := Traced.bind_eq_ok h
    split at h
    · obtain ⟨hxy, heq⟩ := Traced.ite_build_eq_ok h
      cases heq
      rw [Bool.and_eq_true] at hxy
      exact .inr (.inr ⟨_, _, _, room', rfl, hpos, rfl, rfl, hrow, hxy.1, hxy.2, rfl⟩)
    · cases h

theorem applyTier_nil (limit room : ℕ) (tier : Tier) (left : List Expr) :
    applyTier limit room tier left [] = .ok left.reverse := by
  rw [applyTier]

theorem applyTier_of_none {limit room : ℕ} {tier : Tier} {e : Expr} (left rest : List Expr)
    (h : operatorOf? tier e = none) :
    applyTier limit room tier left (e :: rest) = applyTier limit room tier (e :: left) rest := by
  rw [applyTier]
  split
  · rfl
  · next op hop =>
    rw [h] at hop
    cases hop

theorem applyTier_of_some {limit room : ℕ} {tier : Tier} {e : Expr} {op : Operator}
    (left rest : List Expr) (h : operatorOf? tier e = some op) :
    (applyTier limit room tier left (e :: rest)).outcome =
      (resolve limit room op left rest).outcome.bind fun (left, node, rest) =>
        (applyTier limit room tier (node :: left) rest).outcome := by
  rw [applyTier]
  split
  · next hnone =>
    rw [h] at hnone
    cases hnone
  · next op' hop =>
    cases h.symm.trans hop
    split
    · next herr =>
      rw [herr]
      rfl
    · next hok =>
      simp only [hok]
      rfl

theorem operatorOf?_pending (tier : Tier) (op : Operator) :
    operatorOf? tier (pending op) = if op.tier = tier then some op else none := by
  rw [operatorOf?, pendingOperator?_pending, Option.filter_some]
  simp

theorem operatorOf?_of_isResolved {e : Expr} (tier : Tier) (h : e.isResolved = true) :
    operatorOf? tier e = none := by
  rw [operatorOf?, pendingOperator?_of_isResolved h]
  rfl

/-! ## The invariant -/

/-- The entries of a row stand, in order, for segments of the source: a pending operator, which must
satisfy `P`, for itself, and an operand for a segment that `R` relates to it. -/
inductive Covers (P : Operator → Prop) (R : List Expr → Expr → Prop) :
    List Expr → List Expr → Prop
  | nil : Covers P R [] []
  | pending {op : Operator} {row source : List Expr} (hop : P op) (h : Covers P R row source) :
      Covers P R (pending op :: row) (pending op :: source)
  | operand {e : Expr} {segment row source : List Expr} (he : e.isResolved = true)
      (hr : R segment e) (h : Covers P R row source) : Covers P R (e :: row) (segment ++ source)

namespace Covers

variable {P Q : Operator → Prop} {R S : List Expr → Expr → Prop} {row source : List Expr} {e : Expr}

theorem mono (hPQ : ∀ op, P op → Q op) (hRS : ∀ s e, R s e → S s e) (h : Covers P R row source) :
    Covers Q S row source := by
  induction h with
  | nil => exact .nil
  | pending hop _ ih => exact .pending (hPQ _ hop) ih
  | operand he hr _ ih => exact .operand he (hRS _ _ hr) ih

theorem append {row' source' : List Expr} (h : Covers P R row source)
    (h' : Covers P R row' source') : Covers P R (row ++ row') (source ++ source') := by
  induction h with
  | nil => exact h'
  | pending hop _ ih => exact .pending hop ih
  | operand he hr _ ih =>
    rw [List.append_assoc]
    exact .operand he hr ih

theorem singleton {segment : List Expr} (he : e.isResolved = true) (hr : R segment e) :
    Covers P R [e] segment := by
  have h := Covers.operand he hr (.nil : Covers P R [] [])
  rwa [List.append_nil] at h

theorem cons_operand (he : e.isResolved = true) (h : Covers P R (e :: row) source) :
    ∃ segment source', source = segment ++ source' ∧ R segment e ∧ Covers P R row source' := by
  cases h with
  | pending =>
    rw [isResolved_pending] at he
    cases he
  | @operand _ segment _ source' _ hr h => exact ⟨segment, source', rfl, hr, h⟩

theorem concat_operand (he : e.isResolved = true) (h : Covers P R (row ++ [e]) source) :
    ∃ source' segment, source = source' ++ segment ∧ Covers P R row source' ∧ R segment e := by
  induction row generalizing source with
  | nil =>
    obtain ⟨segment, source', rfl, hr, h⟩ := cons_operand he h
    cases h
    exact ⟨[], segment, by simp, .nil, hr⟩
  | cons d row ih =>
    cases h with
    | @pending op _ _ hop h =>
      obtain ⟨source', segment, rfl, h, hr⟩ := ih h
      exact ⟨Expr.pending op :: source', segment, rfl, .pending hop h, hr⟩
    | @operand _ s _ _ hd hs h =>
      obtain ⟨source', segment, rfl, h, hr⟩ := ih h
      exact ⟨s ++ source', segment, by simp, .operand hd hs h, hr⟩

end Covers

/-! ## Rules of a tier -/

/-- The node of an operator that stands before its operands, and the segments of these. -/
inductive Applied (R : List Expr → Expr → Prop) : Operator → List Expr → Expr → Prop
  | unary {op : UnaryOp} {s : List Expr} {x : Expr} (hx : R s x) :
      Applied R (.unary op) s (.unary op x)
  | binary {op : BinaryOp} {s s' : List Expr} {x y : Expr} (hx : R s x) (hy : R s' y) :
      Applied R (.binary op) (s ++ s') (.binary op x y)

/-- How the relations fit together while a tier is applied: `L` holds of the operands that the tier
has passed, `R` of those that it has not reached, and `A` of the arguments of operators, which may
come with leading operators of any tier. -/
structure TierRules (tier : Tier) (P : Operator → Prop) (L R A : List Expr → Expr → Prop) :
    Prop where
  passed : ∀ s e, R s e → L s e
  argument : ∀ s e, R s e → A s e
  nested : ∀ op s e, P op → op.position = .beforeOperands → Applied A op s e →
    A (pending op :: s) e
  leading : ∀ op s e, P op → op.tier = tier → op.position = .beforeOperands → Applied A op s e →
    L (pending op :: s) e
  trailing : ∀ op s x, P (.unary op) → op.tier = tier → op.position = .afterOperand → L s x →
    L (s ++ [pending (.unary op)]) (.unary op x)
  between : ∀ op s s' x y, P (.binary op) → op.tier = tier → op.position = .betweenOperands →
    L s x → A s' y → L (s ++ pending (.binary op) :: s') (.binary op x y)

namespace TierRules

variable {tier : Tier} {P : Operator → Prop} {L R A : List Expr → Expr → Prop}
  (rules : TierRules tier P L R A)
include rules

/-- A row that is settled starts with an argument, if its first entry is an operand at all. The
hypothesis says the same of the resolution of leading operators. -/
theorem settle_covers {resolver : Operator → List Expr → Traced (Expr × List Expr)}
    (hresolver : ∀ op row source node rest, P op → op.position = .beforeOperands →
      Covers P R row source → (resolver op row).outcome = .ok (node, rest) →
      node.isResolved = true ∧ ∃ segment source', source = segment ++ source' ∧
        Applied A op segment node ∧ Covers P R rest source')
    {row source rest : List Expr} {y : Expr} (h : Covers P R row source)
    (hs : (settle resolver row).outcome = .ok (y :: rest)) (hy : y.isResolved = true) :
    ∃ segment source', source = segment ++ source' ∧ A segment y ∧ Covers P R rest source' := by
  cases h with
  | nil => cases hs
  | @pending op row source hop h =>
    rw [settle] at hs
    split at hs
    · next op' hlead =>
      rw [leadingOperator?, pendingOperator?_pending, Option.filter_eq_some_iff] at hlead
      obtain ⟨hop', hpos⟩ := hlead
      cases hop'
      obtain ⟨⟨node, rest'⟩, hnode, hcons⟩ := Traced.bind_eq_ok hs
      cases hcons
      have hpos : op.position = .beforeOperands := by simpa using hpos
      obtain ⟨-, segment, source', rfl, happ, hrest⟩ := hresolver _ _ _ _ _ hop hpos h hnode
      exact ⟨_, source', rfl, rules.nested _ _ _ hop hpos happ, hrest⟩
    · cases hs
      rw [isResolved_pending] at hy
      cases hy
  | @operand e segment row source he hr h =>
    rw [settle, leadingOperator?, pendingOperator?_of_isResolved he] at hs
    cases hs
    exact ⟨segment, source, rfl, rules.argument _ _ hr, h⟩

/-- A leading operator takes its arguments from the front of the row. -/
theorem resolveLeading_covers (limit room : ℕ) (op : Operator) (row source : List Expr) (node : Expr)
    (rest : List Expr) (hop : P op) (hpos : op.position = .beforeOperands)
    (h : Covers P R row source)
    (hs : (resolveLeading limit room op row).outcome = .ok (node, rest)) :
    node.isResolved = true ∧ ∃ segment source', source = segment ++ source' ∧
      Applied A op segment node ∧ Covers P R rest source' := by
  induction room generalizing op row source node rest with
  | zero => cases hs
  | succ room ih =>
    obtain ⟨x, row', hrow', hx, hcases⟩ := resolveLeading_cases hs
    obtain ⟨segment, source', rfl, hax, hrest⟩ := rules.settle_covers ih h hrow' hx
    obtain ⟨u, rfl, rfl, rfl⟩ | ⟨b, y, rfl, hrow'', hy, rfl⟩ := hcases
    · exact ⟨hx, segment, source', rfl, .unary hax, hrest⟩
    · obtain ⟨segment', source'', rfl, hay, hrest⟩ := rules.settle_covers ih hrest hrow'' hy
      refine ⟨?_, segment ++ segment', source'', by simp, .binary hax hay, hrest⟩
      rw [isResolved, hx, hy, Bool.and_self]

/-- An operator of the tier replaces itself and its operands by its node. -/
theorem resolve_covers {limit room : ℕ} {op : Operator} {Q : Operator → Prop}
    {left right left' right' before after : List Expr} {node : Expr} (hop : P op)
    (htier : op.tier = tier) (hl : Covers Q L left.reverse before) (hr : Covers P R right after)
    (hs : (resolve limit room op left right).outcome = .ok (left', node, right')) :
    ∃ before' after', before ++ pending op :: after = before' ++ after' ∧
      Covers Q L (node :: left').reverse before' ∧ Covers P R right' after' := by
  obtain ⟨hpos, rfl, hlead⟩ | ⟨u, x, rfl, hpos, rfl, hx, rfl, rfl⟩ |
    ⟨b, x, y, room', rfl, hpos, rfl, rfl, hsettle, hx, hy, rfl⟩ := resolve_cases hs
  · obtain ⟨hres, segment, after', rfl, happ, hrest⟩ :=
      rules.resolveLeading_covers _ _ _ _ _ _ _ hop hpos hr hlead
    refine ⟨before ++ pending op :: segment, after', by simp, ?_, hrest⟩
    rw [List.reverse_cons]
    exact hl.append (.singleton hres (rules.leading _ _ _ hop htier hpos happ))
  · rw [List.reverse_cons] at hl
    obtain ⟨before', segment, rfl, hl, hseg⟩ := hl.concat_operand hx
    refine ⟨before' ++ (segment ++ [pending (.unary u)]), after, by simp, ?_, hr⟩
    rw [List.reverse_cons]
    exact hl.append (.singleton hx (rules.trailing _ _ _ hop htier hpos hseg))
  · rw [List.reverse_cons] at hl
    obtain ⟨before', segment, rfl, hl, hseg⟩ := hl.concat_operand hx
    obtain ⟨segment', after', rfl, hay, hrest⟩ :=
      rules.settle_covers (rules.resolveLeading_covers limit room') hr hsettle hy
    refine ⟨before' ++ (segment ++ pending (.binary b) :: segment'), after', by simp, ?_, hrest⟩
    rw [List.reverse_cons]
    refine hl.append (.singleton ?_ (rules.between _ _ _ _ _ hop htier hpos hseg hay))
    rw [isResolved, hx, hy, Bool.and_self]

/-- A tier leaves none of its operators behind, and keeps the invariant. -/
theorem applyTier_covers {limit room : ℕ} {left right before after row : List Expr}
    (hl : Covers (fun op => P op ∧ op.tier ≠ tier) L left.reverse before)
    (hr : Covers P R right after)
    (hs : (applyTier limit room tier left right).outcome = .ok row) :
    Covers (fun op => P op ∧ op.tier ≠ tier) L row (before ++ after) := by
  -- the row to the right gets shorter with every step
  induction hn : right.length using Nat.strongRecOn generalizing left right before after with
  | ind n ih =>
    subst hn
    cases hr with
    | nil =>
      rw [applyTier_nil] at hs
      cases hs
      rwa [List.append_nil]
    | @pending op rest after hop hrest =>
      by_cases htier : op.tier = tier
      · rw [applyTier_of_some _ _ (by rw [operatorOf?_pending, if_pos htier])] at hs
        cases hres : (resolve limit room op left rest).outcome with
        | error err =>
          rw [hres] at hs
          cases hs
        | ok result =>
          obtain ⟨left', node, right'⟩ := result
          rw [hres] at hs
          obtain ⟨before', after', heq, hl', hr'⟩ := rules.resolve_covers hop htier hl hrest hres
          rw [heq]
          exact ih _ (Nat.lt_succ_of_le (resolve_length_le hres)) hl' hr' hs rfl
      · rw [applyTier_of_none _ _ (by rw [operatorOf?_pending, if_neg htier])] at hs
        have hl' : Covers (fun op => P op ∧ op.tier ≠ tier) L (pending op :: left).reverse
            (before ++ [pending op]) := by
          rw [List.reverse_cons]
          exact hl.append (.pending ⟨hop, htier⟩ .nil)
        have h := ih _ (Nat.lt_succ_self _) hl' hrest hs rfl
        rwa [List.append_assoc, List.singleton_append] at h
    | @operand e segment rest after he hseg hrest =>
      rw [applyTier_of_none _ _ (operatorOf?_of_isResolved tier he)] at hs
      have hl' : Covers (fun op => P op ∧ op.tier ≠ tier) L (e :: left).reverse
          (before ++ segment) := by
        rw [List.reverse_cons]
        exact hl.append (.singleton he (rules.passed _ _ hseg))
      have h := ih _ (Nat.lt_succ_self _) hl' hrest hs rfl
      rwa [List.append_assoc] at h

end TierRules

/-! ## Chains of tiers -/

/-- Tiers that lead from operands of one relation to operands of another, each by rules of its
own. -/
inductive TierChain (F : List Expr → Expr → Prop) :
    List Tier → (Operator → Prop) → (List Expr → Expr → Prop) → Prop
  | nil {P : Operator → Prop} {R : List Expr → Expr → Prop} (hF : ∀ s e, R s e → F s e) :
      TierChain F [] P R
  | cons {tier : Tier} {tiers : List Tier} {P Q : Operator → Prop}
      {L R A : List Expr → Expr → Prop} (rules : TierRules tier P L R A)
      (hF : ∀ s e, R s e → F s e) (hPQ : ∀ op, P op → op.tier ≠ tier → Q op)
      (h : TierChain F tiers Q L) : TierChain F (tier :: tiers) P R

/-- A tree that is left alone is an operand, and stands for the whole row. -/
theorem Covers.single {P : Operator → Prop} {R : List Expr → Expr → Prop} {row source : List Expr}
    {t : Expr} (h : Covers P R row source) (hs : single row = .ok t) :
    t.isResolved = true ∧ R source t := by
  match row, h with
  | [], _ => cases hs
  | [_], .pending _ .nil =>
    rw [Assembly.single, pendingOperator?_pending] at hs
    cases hs
  | [_], .operand he hr .nil =>
    rw [Assembly.single, pendingOperator?_of_isResolved he] at hs
    cases hs
    rw [List.append_nil]
    exact ⟨he, hr⟩
  | _ :: _ :: _, _ => cases hs

/-- The tree that a chain of tiers gives stands for the whole row. -/
theorem TierChain.assembled {F R : List Expr → Expr → Prop} {P : Operator → Prop} {tiers : List Tier}
    {limit room : ℕ} {row source row' : List Expr} {t : Expr} (hchain : TierChain F tiers P R)
    (h : Covers P R row source) (hs : (applyTiers limit room tiers row).outcome = .ok row')
    (ht : single row' = .ok t) : t.isResolved = true ∧ F source t := by
  induction hchain generalizing row source with
  | nil hF =>
    cases hs
    obtain ⟨hres, hr⟩ := h.single ht
    exact ⟨hres, hF _ _ hr⟩
  | cons rules hF hPQ _ ih =>
    rw [applyTiers] at hs
    split_ifs at hs with hlen
    · cases hs
      obtain ⟨hres, hr⟩ := h.single ht
      exact ⟨hres, hF _ _ hr⟩
    · obtain ⟨row₁, hrow₁, hs⟩ := Traced.bind_eq_ok hs
      have h₁ := rules.applyTier_covers .nil h hrow₁
      exact ih (h₁.mono (fun op hop => hPQ op hop.1 hop.2) fun _ _ hr => hr) hs

end Assembly

end Formula
