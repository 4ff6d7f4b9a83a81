import Formula.Expr.Simplify
import Formula.Proofs.Expr.Exact
import Mathlib.Algebra.Order.Field.Power

/-!
# Soundness of simplification

Each node builder keeps exact values: on operands of the values `p` and `q` it gives an expression
of the value that the operator makes of `p` and `q`. A pass over a tree therefore keeps the exact
value of every node (`exact_simplified`), and so do repeated ones (`exact_run`). The side conditions
of the identities, such as denominators that are not zero, come with the exact values of the operands.
-/

namespace Formula.Expr

variable {x : Fraction} {e a b : Expr} {p q : ℚ}

/-! ## Constants and polynomials -/

theorem exact_zero : Exact x (zero .fraction) 0 :=
  .constant Fraction.wellFormed_zero Fraction.value_zero

theorem exact_one : Exact x (one .fraction) 1 :=
  .constant Fraction.wellFormed_one Fraction.value_one

theorem Exact.eq_zero_of_isZeroConstant (h : Exact x e q) (hz : e.isZeroConstant = true) :
    q = 0 := by
  cases h with
  | @constant f q hf hv =>
    have h0 := (Fraction.isZero_iff hf).1 hz
    simpa [hv, Extended.zero_def] using h0
  | _ => simp [isZeroConstant, constant?] at hz

theorem Exact.eq_one_of_isOneConstant (h : Exact x e q) (ho : e.isOneConstant = true) :
    q = 1 := by
  cases h with
  | @constant f q hf hv =>
    have h1 := ((Fraction.beq_iff hf Fraction.wellFormed_one).1 ho).1
    simpa [hv, Extended.one_def] using h1
  | _ => simp [isOneConstant, constant?] at ho

theorem exact_ofPoly {r : Laurent Fraction} (h : Laurent.Sums x.normalized.value r.terms q) :
    Exact x (ofPoly (.fraction r)) q := by
  unfold ofPoly
  split_ifs with hcount
  · have hnil : r.terms = [] := List.length_eq_zero_iff.1 hcount
    rw [hnil] at h
    cases h
    exact exact_zero
  · exact .poly h

/-! ## Negation and sums -/

theorem exact_negateNode (h : Exact x e q) : Exact x (negateNode e) (-q) := by
  have hneg := Exact.negate h
  cases h with
  | constant hf hv =>
    refine .constant (Fraction.wellFormed_neg _) ?_
    rw [Fraction.value_neg hf, hv, Extended.neg_finite]
  | poly h => exact .poly h.negated
  | negate ha =>
    rw [neg_neg]
    exact ha
  | _ => exact hneg

theorem Exact.eq_neg_of_cancels (ha : Exact x a p) (hb : Exact x b q) (h : cancels a b = true) :
    p = -q := by
  unfold cancels at h
  split at h
  · next w =>
    -- the right operand is a constant
    cases ha with
    | @constant f p hf hfv =>
      cases hb with
      | @constant g q hg hgv =>
        have hbeq : (f == -g) = true := h
        have hvalue := ((Fraction.beq_iff hf (Fraction.wellFormed_neg g)).1 hbeq).1
        rwa [Fraction.value_neg hg, hfv, hgv, Extended.neg_finite, Extended.finite.injEq] at hvalue
    | _ => simp [constant?] at h
  · next c =>
    cases hb with
    | negate hc => rw [neg_neg, hc.eq_of_sameTree ha h]
  · next r =>
    split at h
    · next s =>
      cases ha with
      | poly hs =>
        cases hb with
        | poly hr => exact Laurent.sums_eq_of_beq hs hr.negated h
    · cases h
  · split at h
    · next c =>
      cases ha with
      | negate hc => rw [hc.eq_of_sameTree hb h]
    · cases h

theorem exact_polySum? {r : Poly} (ha : Exact x a p) (hb : Exact x b q)
    (h : polySum? a b = some r) : Exact x (ofPoly r) (p + q) := by
  unfold polySum? at h
  split at h
  · cases ha with
    | poly hp =>
      cases hb with
      | poly hq =>
        cases h
        exact exact_ofPoly (Laurent.sums_added hp hq)
  · cases h

theorem exact_sumNode (ha : Exact x a p) (hb : Exact x b q) : Exact x (sumNode a b) (p + q) := by
  unfold sumNode
  rw [if_pos (ha.kind_eq.trans hb.kind_eq.symm)]
  split_ifs with hb0 ha0 hcancels
  · rwa [hb.eq_zero_of_isZeroConstant hb0, add_zero]
  · rwa [ha.eq_zero_of_isZeroConstant ha0, zero_add]
  · split
    · next r hr => exact exact_polySum? ha hb hr
    · rw [ha.eq_neg_of_cancels hb hcancels, neg_add_cancel, ha.kind_eq]
      exact exact_zero
  · split
    · next r hr => exact exact_polySum? ha hb hr
    · exact .sum ha hb

/-! ## Products and quotients -/

theorem exact_polyProduct? {r : Poly} (ha : Exact x a p) (hb : Exact x b q)
    (h : polyProduct? a b = some r) : Exact x (ofPoly r) (p * q) := by
  unfold polyProduct? at h
  split at h
  · cases ha with
    | poly hp =>
      cases hb with
      | poly hq =>
        cases h
        exact exact_ofPoly (Laurent.sums_multiplied hp hq)
  · cases h

theorem exact_cancelQuotient? (ha : Exact x a p) (hb : Exact x b q)
    (h : cancelQuotient? .fraction a b = some e) : Exact x e (p * q) := by
  unfold cancelQuotient? at h
  split at h
  · next n d =>
    cases ha with
    | quotient hn hd hd0 =>
      split_ifs at h with hdb
      · cases h
        obtain rfl := hd.eq_of_sameTree hb hdb
        rwa [div_mul_cancel₀ _ hd0]
      · split at h
        · next n' d' =>
          split_ifs at h with hinv
          cases h
          rw [Bool.and_eq_true] at hinv
          cases hb with
          | quotient hn' hd' hd0' =>
            obtain rfl := hn'.eq_of_sameTree hd hinv.1
            obtain rfl := hd'.eq_of_sameTree hn hinv.2
            rw [div_mul_div_cancel₀ hd0, div_self hd0']
            exact exact_one
        · cases h
  · cases h

theorem exact_productNode (ha : Exact x a p) (hb : Exact x b q) :
    Exact x (productNode a b) (p * q) := by
  unfold productNode
  rw [if_pos (ha.kind_eq.trans hb.kind_eq.symm), ha.kind_eq]
  split_ifs with h0 hb1 ha1
  · rcases Bool.or_eq_true_iff.1 h0 with ha0 | hb0
    · rw [ha.eq_zero_of_isZeroConstant ha0, zero_mul]
      exact exact_zero
    · rw [hb.eq_zero_of_isZeroConstant hb0, mul_zero]
      exact exact_zero
  · rwa [hb.eq_one_of_isOneConstant hb1, mul_one]
  · rwa [ha.eq_one_of_isOneConstant ha1, one_mul]
  · split
    · next r hr => exact exact_polyProduct? ha hb hr
    · split
      · next c hc => exact exact_cancelQuotient? ha hb hc
      · split
        · next c hc =>
          rw [mul_comm]
          exact exact_cancelQuotient? hb ha hc
        · exact .product ha hb

theorem exact_polyQuotient? {r : Poly} (ha : Exact x a p) (hb : Exact x b q) (hq : q ≠ 0)
    (h : polyQuotient? a b = some r) : Exact x (ofPoly r) (p / q) := by
  unfold polyQuotient? at h
  split at h
  · next s t =>
    split_ifs at h with hmono
    cases ha with
    | poly hs =>
      cases hb with
      | poly ht =>
        cases h
        have hinv := Laurent.sums_power ht (n := -1) (.inr ⟨hmono, hq⟩)
        rw [zpow_neg_one] at hinv
        rw [div_eq_mul_inv]
        exact exact_ofPoly (Laurent.sums_multiplied hs hinv)
  · cases h

theorem exact_quotientNode (ha : Exact x a p) (hb : Exact x b q) (hq : q ≠ 0) :
    Exact x (quotientNode a b) (p / q) := by
  unfold quotientNode
  rw [if_pos (ha.kind_eq.trans hb.kind_eq.symm), ha.kind_eq]
  split_ifs with hb1 hsame
  · rwa [hb.eq_one_of_isOneConstant hb1, div_one]
  · rw [Bool.and_eq_true] at hsame
    rw [ha.eq_of_sameTree hb hsame.1, div_self hq]
    exact exact_one
  · split
    · next r hr => exact exact_polyQuotient? ha hb hq hr
    · split
      · next n d =>
        cases ha with
        | quotient hn hd hd0 =>
          split_ifs with hnb
          · obtain rfl := hn.eq_of_sameTree hb hnb
            rw [div_right_comm, div_self hq]
            exact .quotient exact_one hd hd0
          · rw [div_div]
            exact .quotient hn (exact_productNode hd hb) (mul_ne_zero hd0 hq)
      · exact .quotient ha hb hq

/-! ## Powers -/

theorem exact_polyPower? {r : Poly} {v : Value} {n : ℤ} (ha : Exact x a p) (hn : 0 ≤ n ∨ p ≠ 0)
    (hv : v.toWhole? = some n) (h : polyPower? a v = some r) : Exact x (ofPoly r) (p ^ n) := by
  unfold polyPower? at h
  rw [hv] at h
  split at h
  · next s m hm =>
    cases hm
    split_ifs at h with hlimit
    cases ha with
    | poly hs =>
      cases h
      exact exact_ofPoly (Laurent.sums_power hs (or_and_left.2 ⟨hlimit.2, hn⟩))
  · cases h

theorem exact_powerNode {n : ℤ} (ha : Exact x a p) (hb : Exact x b n) (hn : |n| ≤ 4096)
    (h0 : 0 ≤ n ∨ p ≠ 0)
    (hread : ∀ v, b = constant v → v.toWhole? = some n) : Exact x (powerNode a b) (p ^ n) := by
  unfold powerNode
  split
  · next v =>
    have hk : a.kind = v.kind := ha.kind_eq.trans hb.kind_eq.symm
    rw [if_pos hk]
    split_ifs with h1 hz
    · have hn1 : (n : ℚ) = 1 := hb.eq_one_of_isOneConstant h1
      obtain rfl : n = 1 := by exact_mod_cast hn1
      rwa [zpow_one]
    · have hn0 : (n : ℚ) = 0 := hb.eq_zero_of_isZeroConstant hz
      obtain rfl : n = 0 := by exact_mod_cast hn0
      rw [zpow_zero, ha.kind_eq]
      exact exact_one
    · split
      · next r hr => exact exact_polyPower? ha h0 (hread v rfl) hr
      · exact .power ha hb hn h0
  · exact .power ha hb hn h0

/-! ## Absolute values -/

theorem exact_signedAbs {negative : Bool} (h : Exact x e q)
    (hs : e.isNegative? = some negative) : Exact x (signedAbs negative e) |q| := by
  have hsign := h.isNegative?_sound hs
  unfold signedAbs
  split_ifs at hsign ⊢
  · rw [abs_of_neg hsign]
    exact exact_negateNode h
  · rwa [abs_of_nonneg hsign]

/-- What `absNode` makes of an operand of no particular form. -/
theorem exact_signedAbs_or_abs (h : Exact x e q) :
    Exact x (match e.isNegative? with
      | some negative => signedAbs negative e
      | none => unary .abs e) |q| := by
  split
  · next negative hs => exact exact_signedAbs h hs
  · exact .abs h

theorem abs_add_of_signs {negative : Bool} (hp : if negative then p < 0 else 0 ≤ p)
    (hq : if negative then q < 0 else 0 ≤ q) : |p + q| = |p| + |q| := by
  split_ifs at hp hq
  · exact (abs_add_eq_add_abs_iff p q).2 (.inr ⟨hp.le, hq.le⟩)
  · exact (abs_add_eq_add_abs_iff p q).2 (.inl ⟨hp, hq⟩)

theorem absNode_sum (a b : Expr) : absNode (binary .sum a b) =
    match a.isNegative?, b.isNegative? with
    | some l, some r =>
      if l = r then sumNode (signedAbs l a) (signedAbs r b) else unary .abs (binary .sum a b)
    | _, _ => unary .abs (binary .sum a b) := by
  rfl

theorem absNode_product (a b : Expr) : absNode (binary .product a b) =
    match a.isNegative?, b.isNegative? with
    | some l, some r => binary .product (signedAbs l a) (signedAbs r b)
    | _, _ => unary .abs (binary .product a b) := by
  rfl

theorem absNode_quotient (a b : Expr) : absNode (binary .quotient a b) =
    match a.isNegative?, b.isNegative? with
    | some l, some r => binary .quotient (signedAbs l a) (signedAbs r b)
    | _, _ => unary .abs (binary .quotient a b) := by
  rfl

theorem absNode_power (a b : Expr) : absNode (binary .power a b) =
    match a.isNegative? with
    | some l => binary .power (signedAbs l a) b
    | none => unary .abs (binary .power a b) := by
  rfl

theorem exact_absNode (h : Exact x e q) : Exact x (absNode e) |q| := by
  have habs := exact_signedAbs_or_abs h
  induction h with
  | @constant f q hf hv =>
    have hvalue : f.abs.value = .finite |q| := by
      rw [Fraction.value_abs hf, hv, Extended.abs_finite]
    exact .constant f.wellFormed_abs hvalue
  | poly => exact habs
  | abs ha =>
    rw [abs_abs]
    exact .abs ha
  | negate ha ih =>
    rw [abs_neg]
    exact ih (exact_signedAbs_or_abs ha)
  | sum ha hb =>
    have hplain := Exact.abs (.sum ha hb)
    rw [absNode_sum]
    split
    · next l r hl hr =>
      split_ifs with hlr
      · subst hlr
        rw [abs_add_of_signs (ha.isNegative?_sound hl) (hb.isNegative?_sound hr)]
        exact exact_sumNode (exact_signedAbs ha hl) (exact_signedAbs hb hr)
      · exact hplain
    · exact hplain
  | product ha hb =>
    rw [absNode_product]
    split
    · next l r hl hr =>
      rw [abs_mul]
      exact .product (exact_signedAbs ha hl) (exact_signedAbs hb hr)
    · exact .abs (.product ha hb)
  | quotient ha hb hq =>
    rw [absNode_quotient]
    split
    · next l r hl hr =>
      rw [abs_div]
      exact .quotient (exact_signedAbs ha hl) (exact_signedAbs hb hr) (abs_ne_zero.2 hq)
    · exact .abs (.quotient ha hb hq)
  | power ha hb hn h0 =>
    rw [absNode_power]
    split
    · next l hl =>
      rw [abs_zpow]
      exact .power (exact_signedAbs ha hl) hb hn (h0.imp_right abs_ne_zero.2)
    · exact .abs (.power ha hb hn h0)
  | factorial => exact habs
  | difference => exact habs
  | modulo => exact habs

/-! ## Nodes -/

theorem exact_folded (h : Exact x e q) (hconst : e.isConstant = true) : Exact x e.folded q := by
  obtain ⟨f, hf, hwf, hv⟩ := h.evaluate
  rw [folded, evaluate_eq_of_isConstant hconst _ (.fraction x), hf]
  exact .constant hwf hv

theorem isConstant_of_constant? (h : e.constant?.isSome = true) : e.isConstant = true := by
  cases e with
  | constant => rfl
  | _ => cases h

theorem exact_unaryNode {op : UnaryOp} (h : Exact x (unary op a) q) :
    Exact x (unaryNode op a) q := by
  unfold unaryNode
  split_ifs with hconst
  · refine exact_folded h ?_
    rw [isConstant, isConstant_of_constant? hconst]
  · cases h with
    | abs ha => exact exact_absNode ha
    | negate ha => exact exact_negateNode ha
    | factorial ha hn => exact .factorial ha hn

/-- The exponent that reaches `powerNode` in a node with simplified operands, if it is constant. -/
def constantExponent? (op : BinaryOp) (left right : Expr) : Option Value :=
  if op = .power ∧ left.constant?.isNone then right.constant? else none

theorem exact_binaryNode {op : BinaryOp} (h : Exact x (binary op a b) q)
    (hread : ∀ (f : Fraction) (n : ℤ), constantExponent? op a b = some (.fraction f) →
      (f == .ofInt n) = true → (Value.fraction f).toWhole? = some n) :
    Exact x (binaryNode op a b) q := by
  unfold binaryNode
  split_ifs with hconst
  · rw [Bool.and_eq_true] at hconst
    refine exact_folded h ?_
    rw [isConstant, isConstant_of_constant? hconst.1, isConstant_of_constant? hconst.2]
    rfl
  · cases h with
    | sum ha hb => exact exact_sumNode ha hb
    | difference ha hb =>
      rw [sub_eq_add_neg]
      exact exact_sumNode ha (exact_negateNode hb)
    | product ha hb => exact exact_productNode ha hb
    | quotient ha hb hq => exact exact_quotientNode ha hb hq
    | power ha hb hn h0 =>
      refine exact_powerNode ha hb hn h0 ?_
      rintro v rfl
      cases hb with
      | @constant f _ hf hv =>
        refine hread f _ ?_ ?_
        · simpa [constantExponent?, constant?] using hconst
        · rw [Fraction.beq_iff hf (Fraction.wellFormed_ofInt _), hv, Fraction.value_ofInt]
          simp
    | modulo ha hb hq => exact .modulo ha hb hq

/-! ## Passes -/

/-- The constant exponents that reach `powerNode` in one pass over the expression. -/
def constantExponents : Expr → List Value
  | unary _ operand => operand.constantExponents
  | binary op left right =>
    left.constantExponents ++ right.constantExponents ++
      (constantExponent? op left.simplified right.simplified).toList
  | _ => []

/-- In a pass over the expression, each constant exponent that equals an integer is read as this
integer. The reading goes through floating point, which is exact if the terms of the fraction are not
too large. -/
def ReadsExponents (e : Expr) : Prop :=
  ∀ (f : Fraction) (n : ℤ), .fraction f ∈ e.constantExponents → (f == .ofInt n) = true →
    (Value.fraction f).toWhole? = some n

theorem ReadsExponents.operand {op : UnaryOp} (h : (unary op a).ReadsExponents) :
    a.ReadsExponents := h

theorem ReadsExponents.left {op : BinaryOp} (h : (binary op a b).ReadsExponents) :
    a.ReadsExponents :=
  fun f n hf => h f n (List.mem_append_left _ (List.mem_append_left _ hf))

theorem ReadsExponents.right {op : BinaryOp} (h : (binary op a b).ReadsExponents) :
    b.ReadsExponents :=
  fun f n hf => h f n (List.mem_append_left _ (List.mem_append_right _ hf))

theorem ReadsExponents.node {op : BinaryOp} (h : (binary op a b).ReadsExponents) (f : Fraction)
    (n : ℤ) (hf : constantExponent? op a.simplified b.simplified = some (.fraction f)) :
    (f == .ofInt n) = true → (Value.fraction f).toWhole? = some n :=
  h f n (List.mem_append_right _ (Option.mem_toList.2 hf))

/-- A pass keeps exact values. -/
theorem exact_simplified (h : Exact x e q) (hread : e.ReadsExponents) :
    Exact x e.simplified q := by
  induction h with
  | constant hf hv => exact .constant hf hv
  | poly h => exact .poly h
  | abs _ ih => exact exact_unaryNode (.abs (ih hread.operand))
  | negate _ ih => exact exact_unaryNode (.negate (ih hread.operand))
  | factorial _ hn ih => exact exact_unaryNode (.factorial (ih hread.operand) hn)
  | sum _ _ iha ihb =>
    exact exact_binaryNode (.sum (iha hread.left) (ihb hread.right)) hread.node
  | difference _ _ iha ihb =>
    exact exact_binaryNode (.difference (iha hread.left) (ihb hread.right)) hread.node
  | product _ _ iha ihb =>
    exact exact_binaryNode (.product (iha hread.left) (ihb hread.right)) hread.node
  | quotient _ _ hq iha ihb =>
    exact exact_binaryNode (.quotient (iha hread.left) (ihb hread.right) hq) hread.node
  | power _ _ hn h0 iha ihb =>
    exact exact_binaryNode (.power (iha hread.left) (ihb hread.right) hn h0) hread.node
  | modulo _ _ hq iha ihb =>
    exact exact_binaryNode (.modulo (iha hread.left) (ihb hread.right) hq) hread.node

/-- Repeated passes keep exact values. Each pass starts from `e` or from the result of the pass
before. -/
theorem exact_run (n : ℕ) (h : Exact x e q)
    (hread : ∀ s ∈ (e :: (Simplification.run n e).passes).dropLast, s.ReadsExponents) :
    Exact x (Simplification.run n e).result q := by
  induction n generalizing e with
  | zero => exact h
  | succ n ih =>
    rw [Simplification.run] at hread ⊢
    simp only at hread ⊢
    split_ifs at hread ⊢
    · exact exact_simplified h (by simpa using hread)
    · simp only [List.dropLast_cons_cons, List.forall_mem_cons] at hread
      exact ih (exact_simplified h hread.1) hread.2

/-! ## Values -/

/-- Both expressions evaluate at `x` to fractions, and these are finite and equal. -/
def AgreeAt (x : Fraction) (a b : Expr) : Prop :=
  ∃ f g : Fraction, a.evaluate (.fraction x) = .ok (.fraction f) ∧
    b.evaluate (.fraction x) = .ok (.fraction g) ∧ g.isFinite = true ∧ (g == f) = true

theorem Exact.agreeAt (ha : Exact x a q) (hb : Exact x b q) : AgreeAt x a b := by
  obtain ⟨f, hf, hfwf, hfv⟩ := ha.evaluate
  obtain ⟨g, hg, hgwf, hgv⟩ := hb.evaluate
  refine ⟨f, g, hf, hg, Fraction.isFinite_iff.2 ⟨q, hgv⟩, ?_⟩
  rw [Fraction.beq_iff hgwf hfwf, hfv, hgv]
  simp

/-- Simplification keeps values: where all parts of an arithmetic expression over fractions evaluate to
finite fractions, and its exponents to integers up to 4096, one pass and all passes give expressions
that evaluate to the same number. -/
theorem agreeAt_simplified_and_fixedPoint (he : e.OverFractions)
    (hop : ∀ op ∈ e.operators, op.IsArithmetic)
    (hfin : ∀ s ∈ e.subexpressions, ∃ f : Fraction,
      s.evaluate (.fraction x) = .ok (.fraction f) ∧ f.isFinite = true)
    (hpow : ∀ base exponent, binary .power base exponent ∈ e.subexpressions →
      ∃ (g : Fraction) (n : ℤ), exponent.evaluate (.fraction x) = .ok (.fraction g) ∧
        (g == .ofInt n) = true ∧ |n| ≤ 4096)
    (hread : e.ReadsExponents) :
    AgreeAt x e e.simplified ∧
      ((∀ s ∈ e.simplification.passes.dropLast, s.ReadsExponents) → AgreeAt x e e.fixedPoint) := by
  obtain ⟨q, hq⟩ := exists_exact he hop hfin hpow
  refine ⟨hq.agreeAt (exact_simplified hq hread), fun hpasses => hq.agreeAt (exact_run _ hq ?_)⟩
  change ∀ s ∈ (e :: e.simplification.passes).dropLast, s.ReadsExponents
  cases hp : e.simplification.passes with
  | nil => simp
  | cons s ps =>
    rw [hp] at hpasses
    rw [List.dropLast_cons_cons]
    exact List.forall_mem_cons.2 ⟨hread, hpasses⟩

/-- The product of `(3 * x ^ (-1)) ^ (4 / 2)` and `|-x|` at `2 / 3`. -/
theorem agreeAt_product_of_power_and_abs :
    let e := binary .product
      (binary .power (poly (.fraction ⟨[(-1, .finite false 3 1)]⟩))
        (constant (.fraction (.finite false 4 2))))
      (unary .abs (unary .negate (poly (.fraction ⟨[(1, .finite false 1 1)]⟩))))
    AgreeAt (.finite false 2 3) e e.simplified ∧ AgreeAt (.finite false 2 3) e e.fixedPoint := by
  intro e
  have hexponents : e.constantExponents = [.fraction (.finite false 4 2)] := by rfl
  have hread : e.ReadsExponents := by
    intro f n hf hn
    rw [hexponents, List.mem_singleton, Value.fraction.injEq] at hf
    subst hf
    have hvalue := ((Fraction.beq_iff (by decide) (Fraction.wellFormed_ofInt n)).1 hn).1
    rw [Fraction.value_ofInt, Fraction.value_finite, Extended.finite.injEq] at hvalue
    obtain rfl : n = 2 := by
      norm_num [Fraction.signed] at hvalue
      exact_mod_cast hvalue.symm
    decide +kernel
  have hpasses :
      (e.simplification.passes.dropLast.all fun s => s.constantExponents.isEmpty) = true := by
    decide +kernel
  have h := agreeAt_simplified_and_fixedPoint (x := .finite false 2 3) (e := e) (by decide)
    (by decide) ?_ ?_ hread
  · refine ⟨h.1, h.2 fun s hs f n hf => ?_⟩
    rw [List.all_eq_true] at hpasses
    rw [List.isEmpty_iff.1 (hpasses s hs)] at hf
    cases hf
  · simp only [e, subexpressions, List.forall_mem_cons, List.cons_append, List.nil_append]
    with_unfolding_all
      exact ⟨⟨.finite false 27 2, rfl, rfl⟩, ⟨.finite false 81 4, rfl, rfl⟩,
        ⟨.finite false 9 2, rfl, rfl⟩, ⟨.finite false 4 2, rfl, rfl⟩,
        ⟨.finite false 2 3, rfl, rfl⟩, ⟨.finite true 2 3, rfl, rfl⟩,
        ⟨.finite false 2 3, rfl, rfl⟩, by simp⟩
  · intro base exponent hmem
    simp only [e, subexpressions, List.mem_cons, List.cons_append, List.nil_append, binary.injEq,
      reduceCtorEq, false_and, false_or, true_and, List.not_mem_nil, or_false] at hmem
    obtain ⟨rfl, rfl⟩ := hmem
    exact ⟨.finite false 4 2, 2, rfl, by decide, by decide⟩

end Formula.Expr
