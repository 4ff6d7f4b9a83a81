import Formula.Proofs.Expr.Convergence
import Mathlib.Order.MinMax
import Mathlib.Order.Nat
import Mathlib.Tactic.SplitIfs

/-!
# The kind of a simplified expression

The values of an expression are of its kind (`kind_of_evaluate`), and nearly all rewrites replace a
node by one of the same kind. The exception is a quotient that is multiplied by its denominator: the
numerator comes out, whatever its kind is. `Follows` is the relation that all rewrites keep to: the
kind is never raised, and it stays as it is where every quotient is of the kind of its numerator. A
pass keeps to it as well (`follows_simplified`), and so do repeated passes. Where a numerator is of a
lower kind than its denominator, the kind does change (`simplified_quotient_mul`).
-/

namespace Formula

/-! ## Kinds of operations -/

namespace Kind

theorem priority_combine (a b : Kind) : (a.combine b).priority = max a.priority b.priority := by
  cases a <;> cases b <;> rfl

theorem combine_of_lt {a b : Kind} (h : a.priority < b.priority) : a.combine b = b :=
  if_pos h

end Kind

namespace Value

@[simp] theorem kind_zero (k : Kind) : (zero k).kind = k := by cases k <;> rfl

@[simp] theorem kind_one (k : Kind) : (one k).kind = k := by cases k <;> rfl

theorem kind_map (f : {α : Type} → [Scalar α] → α → α) (v : Value) : (v.map f).kind = v.kind := by
  cases v <;> rfl

theorem kind_neg (v : Value) : (-v).kind = v.kind := by cases v <;> rfl

theorem kind_zip (f : {α : Type} → [Scalar α] → α → α → α) (v w : Value) :
    (zip f v w).kind = v.kind.combine w.kind := by
  unfold zip
  split
  all_goals next h => exact h.symm

end Value

theorem UnaryOp.kind_apply (op : UnaryOp) (v : Value) : (op.apply v).kind = v.kind := by
  cases op with
  | negate => exact Value.kind_neg v
  | _ => exact Value.kind_map _ v

theorem BinaryOp.kind_of_evaluate? {op : BinaryOp} {v w r : Value} (h : op.evaluate? v w = some r) :
    r.kind = v.kind.combine w.kind := by
  cases op with
  | sum =>
    cases h
    exact Value.kind_zip (· + ·) v w
  | difference =>
    cases h
    exact Value.kind_zip (· - ·) v w
  | product =>
    cases h
    exact Value.kind_zip (· * ·) v w
  | quotient =>
    cases h
    exact Value.kind_zip (· / ·) v w
  | logBase =>
    cases h
    rw [Kind.combine_comm]
    exact Value.kind_zip _ w v
  | nthDerivative | nthIntegral => cases h
  | _ =>
    cases h
    exact Value.kind_zip _ v w

namespace Poly

theorem kind_map (f : {α : Type} → [Scalar α] → Laurent α → Laurent α) (p : Poly) :
    (p.map f).kind = p.kind := by
  cases p <;> rfl

theorem kind_of_zip? {f : {α : Type} → [Scalar α] → Laurent α → Laurent α → Laurent α}
    {p q r : Poly} (h : zip? f p q = some r) : r.kind = p.kind := by
  cases p <;> cases q <;> cases h <;> rfl

theorem kind_of_evaluate {p : Poly} {x v : Value} (h : p.evaluate x = .ok v) : v.kind = p.kind := by
  cases p <;> cases x <;> cases h <;> rfl

end Poly

namespace Expr

variable {a b c d e f n : Expr} {k : Kind} {p : Poly} {x v : Value}

/-- The values of an expression are of its kind. -/
theorem kind_of_evaluate (h : e.evaluate x = .ok v) : v.kind = e.kind := by
  induction e generalizing v with
  | constant value =>
    cases h
    rfl
  | poly p => exact Poly.kind_of_evaluate h
  | unary op operand ih =>
    rw [evaluate] at h
    split at h
    · next hv =>
      cases h
      rw [UnaryOp.kind_apply, ih hv, kind]
    · cases h
  | binary op left right ihl ihr =>
    rw [evaluate] at h
    split at h
    · cases h
    · next hv =>
      split at h
      · cases h
      · next hw =>
        split at h
        · next hr =>
          cases h
          rw [BinaryOp.kind_of_evaluate? hr, ihl hv, ihr hw, kind]
        · cases h
  | _ => cases h

/-! ## Kinds under a rewrite -/

/-- Every quotient is of the kind of its numerator. -/
def NumeratorsLead : Expr → Prop
  | unary _ operand => operand.NumeratorsLead
  | binary op left right =>
    left.NumeratorsLead ∧ right.NumeratorsLead ∧
      (op = .quotient → (binary op left right).kind = left.kind)
  | _ => True

instance decidableNumeratorsLead : (e : Expr) → Decidable e.NumeratorsLead
  | constant _ | var _ _ | poly _ | hole => .isTrue trivial
  | unary _ operand => decidableNumeratorsLead operand
  | binary _ left right =>
    have := decidableNumeratorsLead left
    have := decidableNumeratorsLead right
    inferInstanceAs (Decidable (_ ∧ _ ∧ (_ → _)))

/-- What becomes of the kind when `f` takes the place of `e`. -/
structure Follows (e f : Expr) : Prop where
  priority_le : f.kind.priority ≤ e.kind.priority
  kind_eq : e.NumeratorsLead → f.kind = e.kind
  numeratorsLead : e.NumeratorsLead → f.NumeratorsLead

namespace Follows

theorem of_kind_eq (hk : f.kind = e.kind) (hl : e.NumeratorsLead → f.NumeratorsLead) :
    Follows e f :=
  ⟨by rw [hk], fun _ => hk, hl⟩

theorem refl (e : Expr) : Follows e e :=
  of_kind_eq rfl id

theorem trans (h : Follows a b) (h' : Follows b c) : Follows a c where
  priority_le := h'.priority_le.trans h.priority_le
  kind_eq ha := (h'.kind_eq (h.numeratorsLead ha)).trans (h.kind_eq ha)
  numeratorsLead ha := h'.numeratorsLead (h.numeratorsLead ha)

theorem unary (op : UnaryOp) (h : Follows a b) : Follows (.unary op a) (.unary op b) where
  priority_le := h.priority_le
  kind_eq ha := h.kind_eq ha
  numeratorsLead ha := h.numeratorsLead ha

theorem binary (op : BinaryOp) (ha : Follows a c) (hb : Follows b d) :
    Follows (.binary op a b) (.binary op c d) where
  priority_le := by
    rw [kind, kind, Kind.priority_combine, Kind.priority_combine]
    exact max_le_max ha.priority_le hb.priority_le
  kind_eq h := by rw [kind, kind, ha.kind_eq h.1, hb.kind_eq h.2.1]
  numeratorsLead h := by
    refine ⟨ha.numeratorsLead h.1, hb.numeratorsLead h.2.1, fun hop => ?_⟩
    rw [kind, ha.kind_eq h.1, hb.kind_eq h.2.1]
    exact h.2.2 hop

theorem operand (op : UnaryOp) (a : Expr) : Follows (.unary op a) a :=
  of_kind_eq rfl id

theorem wrapped (op : UnaryOp) (a : Expr) : Follows a (.unary op a) :=
  of_kind_eq rfl id

theorem constant (hk : v.kind = e.kind) : Follows e (.constant v) :=
  of_kind_eq hk fun _ => trivial

theorem zero (hk : k = e.kind) : Follows e (zero k) :=
  constant ((Value.kind_zero k).trans hk)

theorem one (hk : k = e.kind) : Follows e (one k) :=
  constant ((Value.kind_one k).trans hk)

theorem ofPoly (hk : p.kind = e.kind) : Follows e (ofPoly p) := by
  unfold Expr.ofPoly
  split_ifs
  · exact zero hk
  · exact of_kind_eq hk fun _ => trivial

theorem left (op : BinaryOp) (hk : a.kind = b.kind) : Follows (.binary op a b) a :=
  of_kind_eq (by rw [kind, ← hk, Kind.combine_self]) And.left

theorem right (op : BinaryOp) (hk : a.kind = b.kind) : Follows (.binary op a b) b :=
  of_kind_eq (by rw [kind, hk, Kind.combine_self]) fun h => h.2.1

/-- Only here the kind can be lowered. -/
theorem numerator (n d : Expr) : Follows (.binary .quotient n d) n where
  priority_le := by
    rw [kind, Kind.priority_combine]
    exact le_max_left _ _
  kind_eq h := (h.2.2 rfl).symm
  numeratorsLead h := h.1

/-- `a - b = a + -b`, once `b` is negated -/
theorem difference (a b : Expr) : Follows (.binary .difference a b) (.binary .sum a b) :=
  of_kind_eq rfl fun h => ⟨h.1, h.2.1, nofun⟩

/-- `(n / d) / c = n / (d * c)` -/
theorem quotient_quotient (hk : (Expr.binary .quotient n d).kind = c.kind) :
    Follows (.binary .quotient (.binary .quotient n d) c)
      (.binary .quotient n (.binary .product d c)) := by
  refine of_kind_eq (Kind.combine_assoc _ _ _).symm fun h => ?_
  obtain ⟨⟨hn, hd, hnd⟩, hc, -⟩ := h
  refine ⟨hn, ⟨hd, hc, nofun⟩, fun _ => ?_⟩
  have hcn : c.kind = n.kind := hk.symm.trans (hnd rfl)
  rw [kind, kind, ← Kind.combine_assoc, hcn]
  exact (congrArg (Kind.combine · n.kind) (hnd rfl)).trans (Kind.combine_self _)

/-- `(n / d) / n = 1 / d` -/
theorem quotient_cancel (hk : (Expr.binary .quotient n d).kind = c.kind) :
    Follows (.binary .quotient (.binary .quotient n d) c)
      (.binary .quotient (.one c.kind) d) := by
  have hcd : c.kind.combine d.kind = c.kind := by
    rw [← hk, kind, Kind.combine_assoc, Kind.combine_self]
  have hone : (Expr.one c.kind).kind = c.kind := Value.kind_one c.kind
  refine of_kind_eq ?_ fun h => ⟨trivial, h.1.2.1, fun _ => ?_⟩
  · rw [kind, kind, hone, hk, Kind.combine_self, hcd]
  · rw [kind, hone, hcd]

end Follows

/-! ## Node builders -/

theorem kind_of_polySum? (h : polySum? a b = some p) : p.kind = a.kind := by
  unfold polySum? at h
  split at h
  · exact Poly.kind_of_zip? h
  · cases h

theorem kind_of_polyProduct? (h : polyProduct? a b = some p) : p.kind = a.kind := by
  unfold polyProduct? at h
  split at h
  · exact Poly.kind_of_zip? h
  · cases h

theorem kind_of_polyQuotient? (h : polyQuotient? a b = some p) : p.kind = a.kind := by
  unfold polyQuotient? at h
  split at h
  · split_ifs at h
    exact Poly.kind_of_zip? h
  · cases h

theorem kind_of_polyPower? (h : polyPower? a v = some p) : p.kind = a.kind := by
  unfold polyPower? at h
  split at h
  · split_ifs at h
    cases h
    exact Poly.kind_map _ _
  · cases h

theorem follows_negateNode (e : Expr) : Follows e (negateNode e) := by
  unfold negateNode
  split
  · exact .constant (Value.kind_neg _)
  · exact .operand _ _
  · exact .of_kind_eq (Poly.kind_map _ _) id
  · exact .wrapped _ _

theorem follows_signedAbs (negative : Bool) (e : Expr) : Follows e (signedAbs negative e) := by
  unfold signedAbs
  split_ifs
  · exact follows_negateNode e
  · exact .refl e

theorem follows_sumNode (a b : Expr) : Follows (binary .sum a b) (sumNode a b) := by
  unfold sumNode
  split_ifs with hk
  · exact .left _ hk
  · exact .right _ hk
  · split
    · next h => exact (Follows.left _ hk).trans (.ofPoly (kind_of_polySum? h))
    · exact (Follows.left _ hk).trans (.zero rfl)
  · split
    · next h => exact (Follows.left _ hk).trans (.ofPoly (kind_of_polySum? h))
    · exact .refl _
  · exact .refl _

theorem follows_cancelQuotient? (h : cancelQuotient? k a b = some e) (hk : k = a.kind) :
    Follows a e := by
  unfold cancelQuotient? at h
  split at h
  · split_ifs at h
    · cases h
      exact .numerator _ _
    · split at h
      · split_ifs at h
        cases h
        exact .one hk
      · cases h
  · cases h

theorem follows_productNode (a b : Expr) : Follows (binary .product a b) (productNode a b) := by
  unfold productNode
  split_ifs with hk
  · exact (Follows.left _ hk).trans (.zero rfl)
  · exact .left _ hk
  · exact .right _ hk
  · split
    · next h => exact (Follows.left _ hk).trans (.ofPoly (kind_of_polyProduct? h))
    · split
      · next h => exact (Follows.left _ hk).trans (follows_cancelQuotient? h rfl)
      · split
        · next h => exact (Follows.right _ hk).trans (follows_cancelQuotient? h hk)
        · exact .refl _
  · exact .refl _

theorem follows_quotientNode (a b : Expr) : Follows (binary .quotient a b) (quotientNode a b) := by
  unfold quotientNode
  split_ifs with hk
  · exact .left _ hk
  · exact (Follows.left _ hk).trans (.one rfl)
  · split
    · next h => exact (Follows.left _ hk).trans (.ofPoly (kind_of_polyQuotient? h))
    · split
      · split_ifs
        · rw [hk]
          exact .quotient_cancel hk
        · exact (Follows.quotient_quotient hk).trans (.binary _ (.refl _) (follows_productNode _ b))
      · exact .refl _
  · exact .refl _

theorem follows_powerNode (a b : Expr) : Follows (binary .power a b) (powerNode a b) := by
  unfold powerNode
  split
  · split_ifs with hk
    · exact .left _ hk
    · exact (Follows.left _ hk).trans (.one rfl)
    · split
      · next h => exact (Follows.left _ hk).trans (.ofPoly (kind_of_polyPower? h))
      · exact .refl _
    · exact .refl _
  · exact .refl _

theorem follows_absNode (e : Expr) : Follows e (absNode e) := by
  fun_induction absNode e with
  | case1 value => exact .constant (Value.kind_map _ value)
  | case2 operand => exact .refl _
  | case3 operand ih => exact (Follows.operand _ _).trans ih
  | case4 a b =>
    exact (Follows.binary _ (follows_signedAbs _ a) (follows_signedAbs _ b)).trans
      (follows_sumNode _ _)
  | case7 a b | case9 a b => exact .binary _ (follows_signedAbs _ a) (follows_signedAbs _ b)
  | case11 a b => exact .binary _ (follows_signedAbs _ a) (.refl b)
  | case13 => exact follows_signedAbs _ _
  | _ => exact .wrapped _ _

theorem follows_folded (e : Expr) : Follows e e.folded := by
  unfold folded
  split
  · next h => exact .constant (kind_of_evaluate h)
  · exact .refl e

/-! ## Passes -/

theorem follows_unaryNode (op : UnaryOp) (a : Expr) : Follows (unary op a) (unaryNode op a) := by
  unfold unaryNode
  split_ifs
  · exact follows_folded _
  · split
    · exact (Follows.operand _ a).trans (follows_absNode a)
    · exact (Follows.operand _ a).trans (follows_negateNode a)
    · exact .refl _

theorem follows_binaryNode (op : BinaryOp) (a b : Expr) :
    Follows (binary op a b) (binaryNode op a b) := by
  unfold binaryNode
  split_ifs
  · exact follows_folded _
  · split
    · exact follows_sumNode a b
    · exact (Follows.difference a b).trans <|
        (Follows.binary _ (.refl a) (follows_negateNode b)).trans (follows_sumNode a _)
    · exact follows_productNode a b
    · exact follows_quotientNode a b
    · exact follows_powerNode a b
    · exact .refl _

theorem follows_simplified (e : Expr) : Follows e e.simplified := by
  induction e with
  | unary op a ih => exact (ih.unary op).trans (follows_unaryNode op _)
  | binary op a b iha ihb => exact (iha.binary op ihb).trans (follows_binaryNode op _ _)
  | _ => exact .refl _

theorem follows_run_result (passes : Nat) (e : Expr) :
    Follows e (Simplification.run passes e).result := by
  induction passes generalizing e with
  | zero => exact .refl e
  | succ passes ih =>
    rw [Simplification.run]
    split_ifs
    · exact follows_simplified e
    · exact (follows_simplified e).trans (ih e.simplified)

theorem follows_fixedPoint (e : Expr) : Follows e e.fixedPoint :=
  follows_run_result Simplification.maxPasses e

/-! ## Where the kind is lowered -/

theorem quotientNode_of_kind_ne (hk : a.kind ≠ b.kind) : quotientNode a b = binary .quotient a b :=
  if_neg hk

theorem productNode_quotient_of_lt (hk : a.kind.priority < b.kind.priority)
    (hzero : b.isZeroConstant = false) (hone : b.isOneConstant = false) (hb : (b == b) = true) :
    productNode (binary .quotient a b) b = a := by
  have hkind : (binary .quotient a b).kind = b.kind := Kind.combine_of_lt hk
  have hzero' : (binary .quotient a b).isZeroConstant = false := rfl
  have hone' : (binary .quotient a b).isOneConstant = false := rfl
  simp [productNode, hkind, hzero, hone, hzero', hone', polyProduct?, cancelQuotient?, hb]

/-- A quotient is lost when it is multiplied by its denominator, and the kind with it if the
denominator is of a higher kind than the numerator. -/
theorem simplified_quotient_mul
    (hk : a.simplified.kind.priority < b.simplified.kind.priority)
    (hconst : a.simplified.constant? = none ∨ b.simplified.constant? = none)
    (hzero : b.simplified.isZeroConstant = false) (hone : b.simplified.isOneConstant = false)
    (hb : (b.simplified == b.simplified) = true) :
    (binary .product (binary .quotient a b) b).simplified = a.simplified := by
  have hfold : ¬ (a.simplified.constant?.isSome && b.simplified.constant?.isSome) = true := by
    rcases hconst with h | h <;> simp [h]
  have hquotient : (binary .quotient a b).simplified =
      binary .quotient a.simplified b.simplified := by
    rw [simplified, binaryNode, if_neg hfold]
    exact quotientNode_of_kind_ne fun h => hk.ne (congrArg Kind.priority h)
  calc (binary .product (binary .quotient a b) b).simplified
      = binaryNode .product (binary .quotient a.simplified b.simplified) b.simplified := by
        rw [simplified, hquotient]
    _ = productNode (binary .quotient a.simplified b.simplified) b.simplified := rfl
    _ = a.simplified := productNode_quotient_of_lt hk hzero hone hb

/-- Simplification never raises the kind of an expression, in one pass or in many, and keeps it if every
quotient is of the kind of its numerator. A pass lowers the kind of every `(a / b) * b` in which it
cancels a numerator of a lower kind than the denominator. -/
theorem kind_simplified_of_mixed_kinds (e : Expr) :
    (e.simplified.kind.priority ≤ e.kind.priority ∧
      e.fixedPoint.kind.priority ≤ e.kind.priority) ∧
      (e.NumeratorsLead → e.simplified.kind = e.kind ∧ e.fixedPoint.kind = e.kind) ∧
      ∀ a b, e = binary .product (binary .quotient a b) b →
        a.simplified.kind.priority < b.simplified.kind.priority →
        a.simplified.constant? = none ∨ b.simplified.constant? = none →
        b.simplified.isZeroConstant = false → b.simplified.isOneConstant = false →
        (b.simplified == b.simplified) = true →
        e.simplified = a.simplified ∧ e.simplified.kind ≠ e.kind := by
  have hpass := follows_simplified e
  have hpasses := follows_fixedPoint e
  refine ⟨⟨hpass.priority_le, hpasses.priority_le⟩,
    fun h => ⟨hpass.kind_eq h, hpasses.kind_eq h⟩, ?_⟩
  rintro a b rfl hk hconst hzero hone hb
  have hsimplified := simplified_quotient_mul hk hconst hzero hone hb
  refine ⟨hsimplified, fun hkind => ?_⟩
  rw [hsimplified] at hkind
  have hle : b.simplified.kind.priority ≤ a.simplified.kind.priority := by
    calc b.simplified.kind.priority
        ≤ b.kind.priority := (follows_simplified b).priority_le
      _ ≤ (binary .product (binary .quotient a b) b).kind.priority := by
        rw [kind, Kind.priority_combine]
        exact le_max_right _ _
      _ = a.simplified.kind.priority := by rw [hkind]
  omega

theorem kind_simplified_of_kept_and_lost_kinds :
    (binary .sum (binary .product (binary .quotient (var "a" .double) (var "b" .double))
        (var "b" .double)) (var "c" .fraction)).simplified.kind = .double ∧
      (binary .product (binary .quotient (var "a" .fraction) (var "b" .double))
        (var "b" .double)).simplified.kind ≠ .double :=
  ⟨((kind_simplified_of_mixed_kinds _).2.1 (by decide)).1,
    ((kind_simplified_of_mixed_kinds _).2.2 _ _ rfl (by decide) (by decide) (by decide) (by decide)
      (by decide)).2⟩

/-- A product of kind `double` turns into a variable of kind `fraction`. -/
theorem kind_simplified_fraction_over_double :
    let e := binary .product (binary .quotient (var "a" .fraction) (var "b" .double))
      (var "b" .double)
    e.kind = .double ∧ e.simplified.kind = .fraction := by
  decide

end Expr

end Formula
