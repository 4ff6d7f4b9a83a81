import Formula.Expr.Range
import Formula.Proofs.Expr.Basic
import Formula.Proofs.Expr.Kind

/-!
# The kinds of shapes, values and ranges

The kind of an expression is found in four ways: from the tree, from its shape, from its values and from
the ends of its range. The first three always agree. For ranges, `Bounds.OfKind` says that both ends are
of one kind. All operations of interval arithmetic meet in the kind of their operands, with one exception:
the range of a remainder is made of the ends of the divisor alone, and stays in their kind. So the ends
are of the kind of the expression if and only if this kind reaches them, from a leaf and on a way that
does not lead through the dividend of a remainder (`KeepsKind`), or is given to them by the whole line.
-/

namespace Formula

theorem Kind.combine_eq_of_left {a b k : Kind} (ha : a = k) (hb : b.priority ≤ k.priority) :
    a.combine b = k := by
  apply priority_injective
  rw [priority_combine, ha]
  exact max_eq_left hb

theorem Kind.combine_eq_or (a b : Kind) : a.combine b = a ∨ a.combine b = b := by
  unfold combine
  split_ifs
  · exact .inr rfl
  · exact .inl rfl

namespace Value

variable {v w : Value}

@[simp] theorem kind_promote (v : Value) (k : Kind) : (v.promote k).kind = k := by
  cases k <;> rfl

@[simp] theorem kind_infinity (k : Kind) : (infinity k).kind = k :=
  kind_promote _ k

@[simp] theorem kind_min (v w : Value) : (v.min w).kind = v.kind := by
  unfold min
  split_ifs
  · exact kind_promote w v.kind
  · rfl

@[simp] theorem kind_max (v w : Value) : (v.max w).kind = v.kind := by
  unfold max
  split_ifs
  · exact kind_promote w v.kind
  · rfl

end Value

/-! ## Intervals -/

namespace Bounds

variable {b c : Bounds} {k l : Kind} {v : Value}

/-- Both ends are of the kind. -/
structure OfKind (b : Bounds) (k : Kind) : Prop where
  min : b.min.kind = k
  max : b.max.kind = k

theorem OfKind.unique (h : b.OfKind k) (h' : b.OfKind l) : k = l :=
  h.min.symm.trans h'.min

theorem OfKind.kind_eq (h : b.OfKind k) : b.kind = k := by
  rw [kind, h.min, h.max, Kind.combine_self]

theorem ofKind_point (v : Value) : (point v).OfKind v.kind :=
  ⟨rfl, rfl⟩

theorem ofKind_unbounded (k : Kind) : (unbounded k).OfKind k :=
  ⟨(Value.kind_neg _).trans (Value.kind_infinity k), Value.kind_infinity k⟩

theorem OfKind.insert (h : b.OfKind k) (v : Value) : (b.insert v).OfKind k :=
  ⟨(Value.kind_min _ v).trans h.min, (Value.kind_max _ v).trans h.max⟩

theorem OfKind.foldl_insert (h : b.OfKind k) (vs : List Value) : (vs.foldl Bounds.insert b).OfKind k := by
  induction vs generalizing b with
  | nil => exact h
  | cons v vs ih => exact ih (h.insert v)

/-- The hull of candidates is the whole line, or in the kind of the first candidate. -/
theorem ofCandidates_cases (k : Kind) (v : Value) (vs : List Value) :
    ofCandidates k (v :: vs) = unbounded k ∨ (ofCandidates k (v :: vs)).OfKind v.kind := by
  unfold ofCandidates
  split_ifs
  · exact .inl rfl
  · exact .inr ((ofKind_point v).foldl_insert vs)

theorem ofKind_ofCandidates {vs : List Value} (hk : v.kind = k) : (ofCandidates k (v :: vs)).OfKind k := by
  rcases ofCandidates_cases k v vs with h | h
  · rw [h]
    exact ofKind_unbounded k
  · exact hk ▸ h

theorem OfKind.sum (hb : b.OfKind k) (hc : c.OfKind l) : (b.sum c).OfKind (k.combine l) := by
  rw [Bounds.sum, hb.kind_eq, hc.kind_eq]
  refine ofKind_ofCandidates ((Value.kind_zip (· + ·) _ _).trans ?_)
  rw [hb.min, hc.min]

theorem OfKind.negated (hb : b.OfKind k) : b.negated.OfKind k :=
  ⟨(Value.kind_neg _).trans hb.max, (Value.kind_neg _).trans hb.min⟩

theorem OfKind.corners {f : Value → Value → Value}
    (hf : ∀ v w, (f v w).kind = v.kind.combine w.kind) (hb : b.OfKind k) (hc : c.OfKind l) :
    (b.corners f c).OfKind (k.combine l) := by
  rw [Bounds.corners, hb.kind_eq, hc.kind_eq]
  refine ofKind_ofCandidates ((hf _ _).trans ?_)
  rw [hb.min, hc.min]

theorem OfKind.monotone {f : Value → Value} (hf : ∀ v, (f v).kind = v.kind) (hb : b.OfKind k) :
    (b.monotone f).OfKind k := by
  rw [Bounds.monotone, hb.kind_eq]
  exact ofKind_ofCandidates ((hf _).trans ((Value.kind_max _ _).trans hb.min))

theorem OfKind.abs (hb : b.OfKind k) : b.abs.OfKind k := by
  unfold Bounds.abs
  split
  · exact hb
  · exact hb.negated
  · refine ⟨?_, ?_⟩
    · rw [hb.kind_eq]
      exact Value.kind_zero k
    · exact (Value.kind_max _ _).trans ((Value.kind_neg _).trans hb.min)

end Bounds

/-! ## Operators -/

theorem UnaryOp.ofKind_bounds (op : UnaryOp) {b : Bounds} {k : Kind} (hb : b.OfKind k) :
    (op.bounds b).OfKind k := by
  cases op with
  | negate => exact hb.negated
  | abs => exact hb.abs
  | sqrt => exact hb.monotone (Value.kind_map _)
  | ln => exact hb.monotone (Value.kind_map _)
  | log2 => exact hb.monotone (Value.kind_map _)
  | log10 => exact hb.monotone (Value.kind_map _)
  | factorial =>
    refine ⟨?_, ?_⟩
    · exact (Value.kind_one _).trans hb.kind_eq
    · exact (Value.kind_infinity _).trans hb.kind_eq

namespace BinaryOp

variable {op : BinaryOp}

/-- The kind in which the ends of two ranges meet: remainders go by their divisor. -/
def rangeKind (op : BinaryOp) (k l : Kind) : Kind :=
  if op = modulo then l else k.combine l

theorem rangeKind_of_ne (hop : op ≠ modulo) (k l : Kind) : op.rangeKind k l = k.combine l :=
  if_neg hop

theorem priority_rangeKind_le (op : BinaryOp) (k l : Kind) :
    (op.rangeKind k l).priority ≤ (k.combine l).priority := by
  unfold rangeKind
  split_ifs
  · rw [Kind.priority_combine]
    exact le_max_right _ _
  · exact le_rfl

/-- A right operand of the highest kind decides, also that of a remainder. -/
theorem rangeKind_eq_of_right {k l n : Kind} (hl : l = n) (hk : k.priority ≤ n.priority) :
    op.rangeKind k l = n := by
  unfold rangeKind
  split_ifs
  · exact hl
  · rw [Kind.combine_comm]
    exact Kind.combine_eq_of_left hl hk

/-- The range of an operation is the whole line, or its ends are of the kind in which the ends of the
operands meet. -/
theorem bounds_cases (op : BinaryOp) (n : Kind) {b c : Bounds} {k l : Kind} (hb : b.OfKind k)
    (hc : c.OfKind l) :
    op.bounds n b c = .unbounded n ∨ (op.bounds n b c).OfKind (op.rangeKind k l) := by
  cases op with
  | sum => exact .inr (hb.sum hc)
  | difference => exact .inr (hb.sum hc.negated)
  | product => exact .inr (hb.corners (Value.kind_zip (· * ·)) hc)
  | quotient =>
    rw [bounds]
    split_ifs
    · exact .inl rfl
    · exact .inr (hb.corners (Value.kind_zip (· / ·)) hc)
  | modulo =>
    have hreach : (-c.min.abs.max c.max.abs).kind = l := by
      rw [Value.kind_neg, Value.kind_max]
      exact (Value.kind_map _ _).trans hc.min
    exact (Bounds.ofCandidates_cases n _ _).imp_right fun h => hreach ▸ h
  | power | logBase | nthDerivative | nthIntegral => exact .inl rfl

end BinaryOp

/-! ## Polynomials -/

namespace Laurent

variable {α : Type} [Scalar α]

theorem ofKind_bounds (hα : ∀ x : α, (Scalar.toValue x).kind = Scalar.kind α) (p : Laurent α) :
    p.bounds.OfKind (Scalar.kind α) := by
  have hterm (t : ℤ × α) : (termBounds t.1 t.2).OfKind (Scalar.kind α) :=
    Bounds.ofKind_ofCandidates (hα _)
  have hfold (terms : List (ℤ × α)) {b : Bounds} (hb : b.OfKind (Scalar.kind α)) :
      (terms.foldl (fun total t => total.sum (termBounds t.1 t.2)) b).OfKind (Scalar.kind α) := by
    induction terms generalizing b with
    | nil => exact hb
    | cons t terms ih =>
      refine ih ?_
      rw [← Kind.combine_self (Scalar.kind α)]
      exact hb.sum (hterm t)
  refine hfold _ ?_
  rw [← hα Scalar.zero]
  exact Bounds.ofKind_point _

end Laurent

theorem Poly.ofKind_bounds (p : Poly) : p.bounds.OfKind p.kind := by
  cases p with
  | double p => exact p.ofKind_bounds fun _ => rfl
  | single p => exact p.ofKind_bounds fun _ => rfl
  | fraction p => exact p.ofKind_bounds fun _ => rfl

/-! ## Expressions -/

namespace Expr

variable {a b e : Expr} {op : BinaryOp} {k l : Kind} {v : Value}

/-- The shape of an expression is of the same kind. -/
theorem kind_descriptor (e : Expr) : e.descriptor.kind = e.kind := by
  induction e with
  | unary op a ih => exact ih
  | binary op a b iha ihb => exact congrArg₂ Kind.combine iha ihb
  | _ => rfl

/-- The kind of the expression reaches the ends of its range: the range is a single value or the whole
line, or the kind comes from an operand, which must not be the dividend of a remainder. -/
inductive KeepsKind : Expr → Prop where
  | constant (v : Value) : KeepsKind (constant v)
  | poly (p : Poly) : KeepsKind (poly p)
  | value {e : Expr} {v : Value} (h : e.constantValue? = some v) : KeepsKind e
  | wholeLine {e : Expr} (h : e.bounds = .unbounded e.kind) : KeepsKind e
  | unary (op : UnaryOp) {a : Expr} (ha : KeepsKind a) : KeepsKind (unary op a)
  | left {op : BinaryOp} {a b : Expr} (hop : op ≠ .modulo) (ha : KeepsKind a)
      (hk : a.kind = (binary op a b).kind) : KeepsKind (binary op a b)
  | right {op : BinaryOp} {a b : Expr} (hb : KeepsKind b) (hk : b.kind = (binary op a b).kind) :
      KeepsKind (binary op a b)

theorem kind_of_constantValue? (h : e.constantValue? = some v) : v.kind = e.kind := by
  unfold constantValue? at h
  split_ifs at h
  split at h
  · next w hw =>
    split_ifs at h
    cases h
    exact kind_of_evaluate hw
  · cases h

theorem bounds_of_constantValue? (h : e.constantValue? = some v) : e.bounds = .point v := by
  cases e <;> rw [bounds, h]

/-- The range of a node is a value, or has the kind of the operand's range. -/
theorem bounds_unary_cases (op : UnaryOp) (ha : a.bounds.OfKind k) :
    (∃ v, (unary op a).constantValue? = some v) ∨ (unary op a).bounds.OfKind k := by
  cases hv : (unary op a).constantValue? with
  | some v => exact .inl ⟨v, rfl⟩
  | none =>
    rw [bounds, hv]
    exact .inr (op.ofKind_bounds ha)

/-- The range of a node is a value or the whole line, or has the kind in which the operands' ranges
meet. -/
theorem bounds_binary_cases (op : BinaryOp) (ha : a.bounds.OfKind k) (hb : b.bounds.OfKind l) :
    (∃ v, (binary op a b).constantValue? = some v) ∨
      (binary op a b).bounds = .unbounded (binary op a b).kind ∨
      (binary op a b).bounds.OfKind (op.rangeKind k l) := by
  cases hv : (binary op a b).constantValue? with
  | some v => exact .inl ⟨v, rfl⟩
  | none =>
    rw [bounds, hv]
    exact .inr (op.bounds_cases _ ha hb)

theorem ofKind_bounds_of_constantValue? (h : e.constantValue? = some v) :
    e.bounds.OfKind e.kind := by
  rw [bounds_of_constantValue? h, ← kind_of_constantValue? h]
  exact Bounds.ofKind_point v

theorem ofKind_bounds_constant (v : Value) : (constant v).bounds.OfKind v.kind := by
  cases hv : (constant v).constantValue? with
  | some w => exact ofKind_bounds_of_constantValue? hv
  | none =>
    rw [bounds, hv]
    exact Bounds.ofKind_point v

theorem ofKind_of_wholeLine (h : e.bounds = .unbounded e.kind) : e.bounds.OfKind e.kind := by
  rw [h]
  exact Bounds.ofKind_unbounded e.kind

theorem priority_left_le (op : BinaryOp) (a b : Expr) :
    a.kind.priority ≤ (binary op a b).kind.priority := by
  rw [kind, Kind.priority_combine]
  exact le_max_left _ _

theorem priority_right_le (op : BinaryOp) (a b : Expr) :
    b.kind.priority ≤ (binary op a b).kind.priority := by
  rw [kind, Kind.priority_combine]
  exact le_max_right _ _

/-- The ends of a range are of one kind, which is not above the kind of the expression. -/
theorem exists_ofKind_bounds (e : Expr) :
    ∃ k, e.bounds.OfKind k ∧ k.priority ≤ e.kind.priority := by
  induction e with
  | constant v => exact ⟨v.kind, ofKind_bounds_constant v, le_rfl⟩
  | var _ k => exact ⟨k, Bounds.ofKind_unbounded k, le_rfl⟩
  | hole => exact ⟨default, Bounds.ofKind_unbounded default, le_rfl⟩
  | poly p => exact ⟨p.kind, p.ofKind_bounds, le_rfl⟩
  | unary op a ih =>
    obtain ⟨k, ha, hk⟩ := ih
    rcases bounds_unary_cases op ha with ⟨v, hv⟩ | h
    · exact ⟨_, ofKind_bounds_of_constantValue? hv, le_rfl⟩
    · exact ⟨k, h, hk⟩
  | binary op a b iha ihb =>
    obtain ⟨k, ha, hk⟩ := iha
    obtain ⟨l, hb, hl⟩ := ihb
    rcases bounds_binary_cases op ha hb with ⟨v, hv⟩ | hline | hmeet
    · exact ⟨_, ofKind_bounds_of_constantValue? hv, le_rfl⟩
    · exact ⟨_, ofKind_of_wholeLine hline, le_rfl⟩
    · refine ⟨_, hmeet, (op.priority_rangeKind_le k l).trans ?_⟩
      rw [kind, Kind.priority_combine, Kind.priority_combine]
      exact max_le_max hk hl

theorem ofKind_of_keepsKind (h : e.KeepsKind) : e.bounds.OfKind e.kind := by
  induction h with
  | constant v => exact ofKind_bounds_constant v
  | poly p => exact p.ofKind_bounds
  | value h => exact ofKind_bounds_of_constantValue? h
  | wholeLine h => exact ofKind_of_wholeLine h
  | unary op _ ih =>
    rcases bounds_unary_cases op ih with ⟨v, hv⟩ | h
    · exact ofKind_bounds_of_constantValue? hv
    · exact h
  | @left op a b hop _ hk ih =>
    obtain ⟨l, hb, hl⟩ := exists_ofKind_bounds b
    rcases bounds_binary_cases op ih hb with ⟨v, hv⟩ | hline | hmeet
    · exact ofKind_bounds_of_constantValue? hv
    · exact ofKind_of_wholeLine hline
    · rwa [BinaryOp.rangeKind_of_ne hop,
        Kind.combine_eq_of_left hk (hl.trans (priority_right_le op a b))] at hmeet
  | @right op a b _ hk ih =>
    obtain ⟨l, ha, hl⟩ := exists_ofKind_bounds a
    rcases bounds_binary_cases op ha ih with ⟨v, hv⟩ | hline | hmeet
    · exact ofKind_bounds_of_constantValue? hv
    · exact ofKind_of_wholeLine hline
    · rwa [BinaryOp.rangeKind_eq_of_right hk (hl.trans (priority_left_le op a b))] at hmeet

theorem keepsKind_of_ofKind (h : e.bounds.OfKind e.kind) : e.KeepsKind := by
  induction e with
  | constant v => exact .constant v
  | poly p => exact .poly p
  | var | hole => exact .wholeLine rfl
  | unary op a ih =>
    obtain ⟨k, ha, -⟩ := exists_ofKind_bounds a
    rcases bounds_unary_cases op ha with ⟨v, hv⟩ | hmeet
    · exact .value hv
    · obtain rfl : k = a.kind := hmeet.unique h
      exact .unary op (ih ha)
  | binary op a b iha ihb =>
    obtain ⟨k, ha, hk⟩ := exists_ofKind_bounds a
    obtain ⟨l, hb, hl⟩ := exists_ofKind_bounds b
    -- an operand whose ends are of the kind of the node is of this kind itself
    have hleft (hop : op ≠ .modulo) (hkn : k = (binary op a b).kind) : (binary op a b).KeepsKind := by
      obtain rfl : k = a.kind :=
        Kind.priority_injective (hk.antisymm (hkn ▸ priority_left_le op a b))
      exact .left hop (iha ha) hkn
    have hright (hln : l = (binary op a b).kind) : (binary op a b).KeepsKind := by
      obtain rfl : l = b.kind :=
        Kind.priority_injective (hl.antisymm (hln ▸ priority_right_le op a b))
      exact .right (ihb hb) hln
    rcases bounds_binary_cases op ha hb with ⟨v, hv⟩ | hline | hmeet
    · exact .value hv
    · exact .wholeLine hline
    · have hkind := hmeet.unique h
      by_cases hop : op = .modulo
      · subst hop
        exact hright hkind
      · rw [BinaryOp.rangeKind_of_ne hop] at hkind
        rcases Kind.combine_eq_or k l with hkl | hkl
        · exact hleft hop (hkl.symm.trans hkind)
        · exact hright (hkl.symm.trans hkind)

/-- The kind is kept if all remainders are of the kind of their divisor, and so without remainders. -/
theorem keepsKind_of_divisors (h : ∀ a b, binary .modulo a b ∈ e.subexpressions →
    b.kind = (binary .modulo a b).kind) : e.KeepsKind := by
  induction e with
  | constant v => exact .constant v
  | poly p => exact .poly p
  | var | hole => exact .wholeLine rfl
  | unary op a ih => exact .unary op (ih fun c d hmem => h c d (List.mem_cons_of_mem _ hmem))
  | binary op a b iha ihb =>
    have ha : a.KeepsKind := iha fun c d hmem =>
      h c d (List.mem_cons_of_mem _ (List.mem_append_left _ hmem))
    have hb : b.KeepsKind := ihb fun c d hmem =>
      h c d (List.mem_cons_of_mem _ (List.mem_append_right _ hmem))
    by_cases hop : op = .modulo
    · subst hop
      exact .right hb (h a b List.mem_cons_self)
    · rcases Kind.combine_eq_or a.kind b.kind with hk | hk
      · exact .left hop ha hk.symm
      · exact .right hb hk.symm

/-- The kinds of an expression, of its shape and of all its values are the same. Both ends of the range are
of one kind as well, which is never above that of the expression. It is the kind of the expression if
and only if this kind reaches the ends, as it does if all remainders are of the kind of their divisor. -/
theorem kinds_agree (e : Expr) :
    e.descriptor.kind = e.kind ∧ (∀ x v, e.evaluate x = .ok v → v.kind = e.kind) ∧
      (∃ k, e.bounds.OfKind k ∧ k.priority ≤ e.kind.priority) ∧
      (e.bounds.OfKind e.kind ↔ e.KeepsKind) ∧
      ((∀ a b, binary .modulo a b ∈ e.subexpressions → b.kind = (binary .modulo a b).kind) →
        e.bounds.OfKind e.kind) :=
  ⟨kind_descriptor e, fun _ _ => kind_of_evaluate, exists_ofKind_bounds e,
    ⟨keepsKind_of_ofKind, ofKind_of_keepsKind⟩,
    fun h => ofKind_of_keepsKind (keepsKind_of_divisors h)⟩

/-- A remainder of 32 bits by a polynomial over fractions, the absolute value of its sum with a number of
64 bits, and the polynomial alone. -/
theorem kinds_agree_of_mixed_remainders :
    let p := poly (.fraction ⟨[(2, .finite false 3 1)]⟩)
    let e := binary .modulo (constant (.single 7)) p
    e.descriptor.kind = .single ∧
      ((Value.single 7).modulo (.fraction (Laurent.eval ⟨[(2, .finite false 3 1)]⟩ .one))).kind = .single ∧
      ¬ e.KeepsKind ∧ (unary .abs (binary .sum e (var "a" .double))).bounds.OfKind .double ∧
      (binary .product p (constant (.single 7))).bounds.OfKind .single := by
  intro p e
  obtain ⟨hdescriptor, hvalue, -, hends, -⟩ := kinds_agree e
  refine ⟨hdescriptor, hvalue (.fraction .one) _ rfl, fun h => ?_, ?_, ?_⟩
  · have hkind : e.bounds.min.kind = .fraction := by decide +kernel
    exact absurd (hkind.symm.trans (hends.2 h).min) (by decide)
  · obtain ⟨-, -, -, hends, -⟩ := kinds_agree (unary .abs (binary .sum e (var "a" .double)))
    exact hends.2 (.unary _ (.right (.wholeLine rfl) rfl))
  · obtain ⟨-, -, -, -, hdivisors⟩ := kinds_agree (binary .product p (constant (.single 7)))
    refine hdivisors fun a b h => ?_
    simp [subexpressions, p] at h

/-- The range of the remainder of a number of 64 bits by the fraction `3` has fractions for its ends. -/
theorem bounds_of_remainder_by_fraction :
    let e := binary .modulo (var "a" .double) (constant (.fraction (.finite false 3 1)))
    e.kind = .double ∧
      e.bounds = ⟨.fraction (.finite true 3 1), .fraction (.finite false 3 1)⟩ ∧
      e.bounds.min.kind ≠ e.kind ∧ e.bounds.max.kind ≠ e.kind := by
  intro e
  have hbounds : e.bounds = ⟨.fraction (.finite true 3 1), .fraction (.finite false 3 1)⟩ := by
    with_unfolding_all rfl
  rw [hbounds]
  exact ⟨rfl, rfl, by decide, by decide⟩

end Expr

end Formula
