import Formula.Proofs.Assembly.Covers
import Mathlib.Data.List.Forall2

/-!
# Two runs of assembly

Assembly looks at its entries only to see which operators are pending and which operands are resolved.
So two rows whose entries are `Interchangeable` are assembled in lockstep: both runs apply the same
operators in the same order, and end in the same error or in interchangeable trees
(`tracks_assembleWithin`).

The two runs need not have the same number of levels. If the first one has fewer it may be cut off by
its limit, and until then it does what the second one does. `Tracks` has both cases in one relation, with
a proposition `cut` that tells whether the first run may be cut off.
-/

namespace Formula

variable {α β γ δ : Type} {cut : Prop} {S : α → β → Prop} {T : γ → δ → Prop}

/-! ## Results of two runs -/

/-- The second result is the error of the first one, or a value that `S` relates to its value. Where the
first run may be cut off by its limit, nothing is said once this has happened. -/
inductive Tracks (cut : Prop) (S : α → β → Prop) :
    Except ParseError α → Except ParseError β → Prop
  | ok {a : α} {b : β} (h : S a b) : Tracks cut S (.ok a) (.ok b)
  | error (e : ParseError) : Tracks cut S (.error e) (.error e)
  | tooDeep (h : cut) (limit : ℕ) (y : Except ParseError β) :
      Tracks cut S (.error (.tooDeep limit)) y

/-- Two runs stay in lockstep if they go on so from related values. -/
theorem Tracks.except_bind {x : Except ParseError α} {y : Except ParseError β}
    {f : α → Except ParseError γ} {g : β → Except ParseError δ} (h : Tracks cut S x y)
    (hfg : ∀ a b, x = .ok a → S a b → Tracks cut T (f a) (g b)) :
    Tracks cut T (x.bind f) (y.bind g) := by
  cases h with
  | ok hab => exact hfg _ _ rfl hab
  | error e => exact .error e
  | tooDeep hcut limit y => exact .tooDeep hcut limit _

theorem Tracks.bind {x : Traced α} {y : Traced β} {f : α → Traced γ} {g : β → Traced δ}
    (h : Tracks cut S x.outcome y.outcome)
    (hfg : ∀ a b, S a b → Tracks cut T (f a).outcome (g b).outcome) :
    Tracks cut T (x.bind f).outcome (y.bind g).outcome := by
  rw [Traced.bind_outcome, Traced.bind_outcome]
  exact h.except_bind fun a b _ => hfg a b

theorem Tracks.error_or_ok {x : Except ParseError α} {y : Except ParseError β}
    (h : Tracks False S x y) :
    (∃ e, x = .error e ∧ y = .error e) ∨ ∃ a b, x = .ok a ∧ y = .ok b ∧ S a b := by
  cases h with
  | ok h => exact .inr ⟨_, _, rfl, rfl, h⟩
  | error e => exact .inl ⟨e, rfl, rfl⟩
  | tooDeep hcut limit y => exact hcut.elim

theorem Tracks.eq_of_ne_tooDeep {x y : Except ParseError α} (h : Tracks cut Eq x y)
    (hx : ∀ limit, x ≠ .error (.tooDeep limit)) : y = x := by
  cases h with
  | ok h => rw [h]
  | error e => rfl
  | tooDeep hcut limit y => exact absurd rfl (hx limit)

theorem tracks_ite_build {c c' : Prop} [Decidable c] [Decidable c'] {node node' : Expr} {a : α}
    {b : β} (e : ParseError) (hc : c ↔ c') (h : S a b) :
    Tracks cut S (if c then Traced.build node a else .error e).outcome
      (if c' then Traced.build node' b else .error e).outcome := by
  by_cases hc' : c'
  · rw [if_pos (hc.2 hc'), if_pos hc']
    exact .ok h
  · rw [if_neg (hc.not.2 hc'), if_neg hc']
    exact .error e

namespace Assembly

open Formula.Expr List

variable {R : Expr → Expr → Prop} {limit room limit' room' : ℕ} {left left' row row' : List Expr}

/-! ## Levels and entries -/

/-- The limits and the levels left in two runs: the same ones, or no fewer levels in the second run if
the first one may be cut off. -/
inductive Levels (cut : Prop) (limit room : ℕ) : ℕ → ℕ → Prop
  | same : Levels cut limit room limit room
  | more {limit' room' : ℕ} (h : cut) (hroom : room ≤ room') : Levels cut limit room limit' room'

theorem Levels.exists_pred (h : Levels cut limit (room + 1) limit' room') :
    ∃ k, room' = k + 1 ∧ Levels cut limit room limit' k := by
  cases h with
  | same => exact ⟨room, rfl, .same⟩
  | more hcut hroom =>
    obtain ⟨k, rfl⟩ := Nat.exists_eq_add_of_le' (Nat.le_trans (Nat.succ_pos room) hroom)
    exact ⟨k, rfl, .more hcut (Nat.le_of_succ_le_succ hroom)⟩

/-- Without a level left, the second run fails as the first one does, or the first one is cut off. -/
theorem Levels.tracks_tooDeep (h : Levels cut limit 0 limit' room') {y : Except ParseError β}
    (hy : limit' = limit → room' = 0 → y = .error (.tooDeep limit)) :
    Tracks cut S (.error (.tooDeep limit)) y := by
  cases h with
  | same =>
    rw [hy rfl rfl]
    exact .error _
  | more hcut _ => exact .tooDeep hcut limit y

/-- A relation of expressions that look alike for assembly, and that building nodes preserves. -/
structure Interchangeable (R : Expr → Expr → Prop) : Prop where
  pendingOperator?_eq {x y : Expr} (h : R x y) : x.pendingOperator? = y.pendingOperator?
  isResolved_eq {x y : Expr} (h : R x y) : x.isResolved = y.isResolved
  pending (op : Operator) : R (pending op) (pending op)
  unary {x y : Expr} (op : UnaryOp) (h : R x y) : R (unary op x) (unary op y)
  binary {a b c d : Expr} (op : BinaryOp) (h : R a c) (h' : R b d) :
    R (binary op a b) (binary op c d)

theorem interchangeable_eq : Interchangeable Eq where
  pendingOperator?_eq h := congrArg _ h
  isResolved_eq h := congrArg _ h
  pending _ := rfl
  unary _ h := congrArg _ h
  binary _ h h' := congrArg₂ _ h h'

namespace Interchangeable

theorem markNegations (hR : Interchangeable R) (endsOperand : Bool) (h : Forall₂ R row row') :
    Forall₂ R (markNegations endsOperand row) (markNegations endsOperand row') := by
  induction h generalizing endsOperand with
  | nil => exact .nil
  | cons he _ ih =>
    rw [Assembly.markNegations, Assembly.markNegations, ← hR.pendingOperator?_eq he]
    split
    · exact .cons he (ih _)
    · split_ifs
      · exact .cons (hR.pending _) (ih _)
      · exact .cons he (ih _)

/-! ## Applying one operator -/

theorem tracks_settle (hR : Interchangeable R)
    {resolve resolve' : Operator → List Expr → Traced (Expr × List Expr)}
    (hresolve : ∀ op row row', Forall₂ R row row' →
      Tracks cut (fun p q => R p.1 q.1 ∧ Forall₂ R p.2 q.2) (resolve op row).outcome
        (resolve' op row').outcome) (h : Forall₂ R row row') :
    Tracks cut (Forall₂ R) (settle resolve row).outcome (settle resolve' row').outcome := by
  cases h with
  | nil => exact .ok .nil
  | cons he hrow =>
    rw [settle, settle, leadingOperator?, leadingOperator?, ← hR.pendingOperator?_eq he]
    split
    · next op _ => exact (hresolve op _ _ hrow).bind fun p q hpq => .ok (.cons hpq.1 hpq.2)
    · exact .ok (.cons he hrow)

theorem tracks_unary (hR : Interchangeable R) (op : UnaryOp) {x y : Expr} {a : α} {b : β}
    (h : R x y) (hab : S a b) (e : ParseError) :
    Tracks cut S (if x.isResolved then Traced.build (.unary op x) a else .error e).outcome
      (if y.isResolved then Traced.build (.unary op y) b else .error e).outcome :=
  tracks_ite_build e (by rw [hR.isResolved_eq h]) hab

theorem tracks_binary (hR : Interchangeable R) (op : BinaryOp) {x y z w : Expr} {a : α} {b : β}
    (h : R x z) (h' : R y w) (hab : S a b) (e : ParseError) :
    Tracks cut S
      (if x.isResolved && y.isResolved then Traced.build (.binary op x y) a else .error e).outcome
      (if z.isResolved && w.isResolved then Traced.build (.binary op z w) b else .error e).outcome :=
  tracks_ite_build e (by rw [hR.isResolved_eq h, hR.isResolved_eq h']) hab

/-- Both runs take the same number of operands, and use up one level for each operator that waits in
an operand's place. -/
theorem tracks_resolveLeading (hR : Interchangeable R) (hlevels : Levels cut limit room limit' room')
    (op : Operator) (h : Forall₂ R row row') :
    Tracks cut (fun p q => R p.1 q.1 ∧ Forall₂ R p.2 q.2) (resolveLeading limit room op row).outcome
      (resolveLeading limit' room' op row').outcome := by
  induction room generalizing room' op row row' with
  | zero =>
    refine hlevels.tracks_tooDeep fun hlimit hroom => ?_
    rw [hlimit, hroom]
    rfl
  | succ room ih =>
    obtain ⟨room', rfl, hfewer⟩ := hlevels.exists_pred
    have hsettle {row row' : List Expr} (h : Forall₂ R row row') :=
      hR.tracks_settle (fun op row row' => ih hfewer op) h
    rw [resolveLeading, resolveLeading]
    refine (hsettle h).bind fun s s' hs => ?_
    cases hs with
    | nil => cases op <;> exact .error _
    | cons hx hs =>
      cases op with
      | unary u => exact hR.tracks_unary u hx ⟨hR.unary u hx, hs⟩ _
      | binary b =>
        refine (hsettle hs).bind fun t t' ht => ?_
        cases ht with
        | nil => exact .error _
        | cons hy ht => exact hR.tracks_binary b hx hy ⟨hR.binary b hx hy, ht⟩ _

theorem tracks_resolve (hR : Interchangeable R) (hlevels : Levels cut limit room limit' room')
    (op : Operator) (hleft : Forall₂ R left left') (h : Forall₂ R row row') :
    Tracks cut (fun p q => Forall₂ R p.1 q.1 ∧ R p.2.1 q.2.1 ∧ Forall₂ R p.2.2 q.2.2)
      (resolve limit room op left row).outcome (resolve limit' room' op left' row').outcome := by
  by_cases hlead : op.position = .beforeOperands
  · simp only [resolve, hlead]
    exact (hR.tracks_resolveLeading hlevels op h).bind fun p q hpq => .ok ⟨hleft, hpq⟩
  cases room with
  | zero =>
    rw [resolve_zero]
    refine hlevels.tracks_tooDeep fun hlimit hroom => ?_
    rw [hlimit, hroom, resolve_zero]
    rfl
  | succ room =>
    obtain ⟨room', rfl, hfewer⟩ := hlevels.exists_pred
    cases hpos : op.position with
    | beforeOperands => exact absurd hpos hlead
    | afterOperand =>
      simp only [resolve, hpos]
      cases hleft with
      | nil => cases op <;> exact .error _
      | cons hx hleft =>
        cases op with
        | unary u => exact hR.tracks_unary u hx ⟨hleft, hR.unary u hx, h⟩ _
        | binary b => exact .error _
    | betweenOperands =>
      simp only [resolve, hpos]
      refine (hR.tracks_settle (fun op _ _ => hR.tracks_resolveLeading hfewer op) h).bind
        fun s s' hs => ?_
      cases op with
      | unary u => exact .error _
      | binary b =>
        cases hleft with
        | nil => exact .error _
        | cons hx hleft =>
          cases hs with
          | nil => exact .error _
          | cons hy hs => exact hR.tracks_binary b hx hy ⟨hleft, hR.binary b hx hy, hs⟩ _

/-! ## Applying all operators -/

theorem operatorOf?_eq (hR : Interchangeable R) (tier : Tier) {x y : Expr} (h : R x y) :
    operatorOf? tier x = operatorOf? tier y := by
  rw [operatorOf?, operatorOf?, hR.pendingOperator?_eq h]

/-- The runs of one tier meet the same operators in the same places. -/
theorem tracks_applyTier (hR : Interchangeable R) (hlevels : Levels cut limit room limit' room')
    (tier : Tier) (hleft : Forall₂ R left left') (h : Forall₂ R row row') :
    Tracks cut (Forall₂ R) (applyTier limit room tier left row).outcome
      (applyTier limit' room' tier left' row').outcome := by
  -- the row to the right gets shorter with every step
  induction hn : row.length using Nat.strongRecOn generalizing left left' row row' with
  | ind n ih =>
    subst hn
    cases h with
    | nil =>
      rw [applyTier_nil, applyTier_nil]
      exact .ok (rel_reverse hleft)
    | @cons e e' rest rest' he hrest =>
      have heq := hR.operatorOf?_eq tier he
      cases hop : operatorOf? tier e with
      | none =>
        rw [applyTier_of_none _ _ hop, applyTier_of_none _ _ (heq.symm.trans hop)]
        exact ih _ (Nat.lt_succ_self _) (.cons he hleft) hrest rfl
      | some op =>
        rw [applyTier_of_some _ _ hop, applyTier_of_some _ _ (heq.symm.trans hop)]
        refine (hR.tracks_resolve hlevels op hleft hrest).except_bind ?_
        rintro ⟨before, node, behind⟩ ⟨before', node', behind'⟩ hres ⟨hbefore, hnode, hbehind⟩
        exact ih _ (Nat.lt_succ_of_le (resolve_length_le hres)) (.cons hnode hbefore) hbehind rfl

theorem tracks_applyTiers (hR : Interchangeable R) (hlevels : Levels cut limit room limit' room')
    (tiers : List Tier) (h : Forall₂ R row row') :
    Tracks cut (Forall₂ R) (applyTiers limit room tiers row).outcome
      (applyTiers limit' room' tiers row').outcome := by
  induction tiers generalizing row row' with
  | nil => exact .ok h
  | cons tier tiers ih =>
    rw [applyTiers, applyTiers, ← h.length_eq]
    split_ifs
    · exact .ok h
    · exact (hR.tracks_applyTier hlevels tier .nil h).bind fun _ _ hrow => ih hrow

theorem tracks_single (hR : Interchangeable R) (h : Forall₂ R row row') :
    Tracks cut R (single row) (single row') := by
  cases h with
  | nil => exact .error _
  | cons he hrow =>
    cases hrow with
    | nil =>
      rw [single, single, ← hR.pendingOperator?_eq he]
      split
      · exact .error _
      · exact .ok he
    | cons _ hrow =>
      simp only [single, List.length_cons, hrow.length_eq]
      exact .error _

/-- Rows of interchangeable entries are assembled into interchangeable trees, or fail for the same
reason. -/
theorem tracks_assembleWithin (hR : Interchangeable R) (hlevels : Levels cut limit room limit' room')
    (h : Forall₂ R row row') :
    Tracks cut R (assembleWithin limit room row).outcome
      (assembleWithin limit' room' row').outcome :=
  (hR.tracks_applyTiers hlevels _ (hR.markNegations false h)).bind fun _ _ => hR.tracks_single

end Interchangeable

end Assembly

end Formula
