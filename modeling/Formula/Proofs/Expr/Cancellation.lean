import Formula.Expr.Arithmetic
import Formula.Proofs.Expr.Tidy

/-!
# An expression and its negation cancel

`e.plus e.negated` simplifies `e` once on the left and twice on the right, so at first the two sides are
a pass apart: it is the `offset` sum of `e.simplified`. A pass over an offset sum gives the offset sum of
the next tree, unless it gives zero (`simplified_offset`). As passes over `e` come to rest, the two sides
become each other's negation, and then they cancel (`plus_negated_comes_to_zero`). All this is for trees
over fractions without infinities and NaN, which differ from themselves or have no sum. Sums and negations
of trees overflow only where the trees do (`passFits_sumNode`, `passFits_negateNode`), so that all the
passes have a result if those over the tree have one.
-/

namespace Formula.Expr

variable {a b e : Expr}

/-! ## Finite numbers -/

/-- No constant and no coefficient is infinite or NaN. -/
def FiniteNumbers : Expr → Prop
  | constant (.fraction f) => f.isFinite = true
  | poly (.fraction p) => ∀ t ∈ p.terms, t.2.isFinite = true
  | unary _ operand => operand.FiniteNumbers
  | binary _ left right => left.FiniteNumbers ∧ right.FiniteNumbers
  | _ => True

theorem value_ne_nan_of_isFinite {f : Fraction} (h : f.isFinite = true) : f.value ≠ .nan := by
  obtain ⟨q, hq⟩ := Fraction.isFinite_iff.1 h
  rw [hq]
  exact Extended.noConfusion

/-- A tidy tree without infinities and NaN is equal to itself. -/
theorem Tidy.beq_self (h : Tidy a) (hfin : a.FiniteNumbers) : (a == a) = true := by
  induction h with
  | @constant f hf =>
    have hbeq : (f == f) = true := (Fraction.beq_iff hf hf).2 ⟨rfl, value_ne_nan_of_isFinite hfin⟩
    exact Bool.or_eq_true_iff.2 (.inl hbeq)
  | var name =>
    show (name == name && Kind.fraction == Kind.fraction) = true
    rw [beq_self_eq_true, beq_self_eq_true]
    rfl
  | @poly p hp => exact (Laurent.beq_iff_toRing_eq (hp.reduced hfin) (hp.reduced hfin)).2 rfl
  | unary _ _ ih | negate _ _ ih =>
    rw [beq_unary]
    exact ih hfin
  | binary op _ _ iha ihb =>
    rw [beq_binary, iha hfin.1, ihb hfin.2]
    rfl

/-- A negation that cannot be carried out is seen through. -/
theorem cancels_negate (h : negateNode b = unary .negate b) :
    cancels (unary .negate b) b = (b == b) := by
  cases b with
  | unary op operand =>
    cases op with
    | negate =>
      have hw := congrArg weight h
      simp only [negateNode, weight, UnaryOp.weight] at hw
      omega
    | _ => rfl
  | constant | poly => cases h
  | _ => rfl

/-- A tidy tree and its negation cancel by sight. -/
theorem cancels_negateNode (h : Tidy a) (hfin : a.FiniteNumbers) :
    cancels a (negateNode a) = true := by
  have hself := h.beq_self hfin
  cases h with
  | @constant f hf =>
    show (f == - -f) = true
    rw [Fraction.neg_neg hf]
    exact (Fraction.beq_iff hf hf).2 ⟨rfl, value_ne_nan_of_isFinite hfin⟩
  | @poly p hp =>
    show (p == p.negated.negated) = true
    rw [hp.negated_negated]
    exact hself
  | unary hop =>
    rw [negateNode_unary hop]
    exact hself
  | @negate b _ hneg =>
    rw [beq_unary] at hself
    exact (cancels_negate hneg).trans hself
  | _ => exact hself

/-! ## Zero -/

/-- The expression is a constant of value zero. -/
def IsZero (e : Expr) : Prop :=
  ∃ f : Fraction, e = constant (.fraction f) ∧ f.isZero = true

theorem isZero_zero : IsZero (zero .fraction) :=
  ⟨.zero, rfl, rfl⟩

theorem IsZero.beq_zero (h : IsZero e) : (e == zero .fraction) = true := by
  obtain ⟨f, rfl, hf⟩ := h
  exact Bool.or_eq_true_iff.2 (.inl hf)

theorem IsZero.simplified_eq (h : IsZero e) : e.simplified = e := by
  obtain ⟨f, rfl, -⟩ := h
  rfl

theorem Tidy.isZeroConstant_iff (h : Tidy a) : a.isZeroConstant = true ↔ IsZero a := by
  constructor
  · intro hz
    cases h with
    | constant hf => exact ⟨_, rfl, hz⟩
    | _ => cases hz
  · rintro ⟨f, rfl, hf⟩
    exact hf

theorem IsZero.negateNode (h : IsZero a) (ha : Tidy a) : IsZero (negateNode a) := by
  obtain ⟨f, rfl, hf⟩ := h
  obtain ⟨g, hg, hwf⟩ := ha.exists_fraction
  cases hg
  refine ⟨-f, rfl, ?_⟩
  rw [Fraction.isZero_neg hwf, hf]

theorem isZero_of_negateNode (h : IsZero (negateNode a)) (ha : Tidy a) : IsZero a := by
  rw [← negateNode_negateNode ha]
  exact h.negateNode (tidy_negateNode ha)

/-- What the sum of two tidy trees can be. -/
theorem sumNode_cases (ha : Tidy a) (hb : Tidy b) :
    (IsZero b ∧ sumNode a b = a) ∨ (IsZero a ∧ sumNode a b = b) ∨
      (∃ p q, a = poly (.fraction p) ∧ b = poly (.fraction q) ∧
        sumNode a b = ofPoly (.fraction (p.added q))) ∨
      (cancels a b = true ∧ sumNode a b = zero .fraction) ∨
      cancels a b = false ∧ sumNode a b = binary .sum a b := by
  have hkind : a.kind = b.kind := ha.kind_eq.trans hb.kind_eq.symm
  rw [sumNode, if_pos hkind, ha.kind_eq]
  by_cases hb0 : b.isZeroConstant = true
  · exact .inl ⟨hb.isZeroConstant_iff.1 hb0, if_pos hb0⟩
  rw [if_neg hb0]
  by_cases ha0 : a.isZeroConstant = true
  · exact .inr (.inl ⟨ha.isZeroConstant_iff.1 ha0, if_pos ha0⟩)
  rw [if_neg ha0]
  right; right
  cases hsum : polySum? a b with
  | some r =>
    left
    unfold polySum? at hsum
    split at hsum
    · obtain ⟨p, rfl, -⟩ := ha.exists_laurent
      obtain ⟨q, rfl, -⟩ := hb.exists_laurent
      cases hsum
      exact ⟨p, q, rfl, rfl, rfl⟩
    · cases hsum
  | none =>
    right
    cases hc : cancels a b with
    | true => exact .inl ⟨rfl, rfl⟩
    | false => exact .inr ⟨rfl, rfl⟩

/-- A canonical polynomial and its negation add up to zero. -/
theorem ofPoly_added_negated {p : Laurent Fraction} (hp : p.Canonical)
    (hfin : ∀ t ∈ p.terms, t.2.isFinite = true) :
    ofPoly (.fraction (p.added p.negated)) = zero .fraction := by
  have hordered := (hp.reduced hfin).ordered
  have hzero : (p.subtracted p).isZero = true := Laurent.isZero_subtracted_self hordered
  have hcount : (Poly.fraction (p.added p.negated)).termCount = 0 :=
    List.length_eq_zero_iff.2 (List.isEmpty_iff.1 hzero)
  rw [ofPoly, if_pos hcount]
  rfl

/-! ## Offset sums -/

/-- The sum of a tree and its negation, the negation being one pass ahead. -/
def offset (a : Expr) : Expr :=
  sumNode a (negateNode a.simplified)

/-- A sum and a negation simplify their operands once more. -/
theorem plus_negated (h : Tidy e.simplified) : e.plus e.negated = offset e.simplified := by
  rw [plus, negated, simplified_negateNode h, offset]

/-- The sum of a finite constant and its negation. -/
theorem isZero_folded_sum {f : Fraction} (hf : f.WellFormed) (hfin : f.isFinite = true) :
    IsZero (binary .sum (constant (.fraction f)) (constant (.fraction (-f)))).folded := by
  obtain ⟨q, hq⟩ := Fraction.isFinite_iff.1 hfin
  have hneg := Fraction.wellFormed_neg f
  refine ⟨f + -f, folded_binary_of_some (BinaryOp.evaluate?_sum f (-f)), ?_⟩
  rw [Fraction.isZero_iff (Fraction.wellFormed_add _ _ hf hneg), Fraction.value_add hf hneg,
    Fraction.value_neg hf, hq, Extended.neg_finite, Extended.finite_add, add_neg_cancel,
    Extended.zero_def]

/-- An offset sum comes to zero in a pass, unless it is a node of its own. -/
theorem offset_cases (ha : Tidy a) (hfin : a.simplified.FiniteNumbers) :
    IsZero (offset a).simplified ∨
      cancels a (negateNode a.simplified) = false ∧
        offset a = binary .sum a (negateNode a.simplified) := by
  have hnext := ha.simplified
  rw [offset]
  obtain ⟨hb, heq⟩ | ⟨hzero, heq⟩ | ⟨p, q, rfl, hq, heq⟩ | ⟨-, heq⟩ | hnode :=
    sumNode_cases ha (tidy_negateNode hnext)
  · left
    rw [heq]
    exact isZero_of_negateNode hb hnext
  · left
    have hneg := hzero.negateNode ha
    rw [heq, hzero.simplified_eq, hneg.simplified_eq]
    exact hneg
  · left
    cases hq
    obtain ⟨r, hr, hcanon⟩ := ha.exists_laurent
    cases hr
    rw [heq, ofPoly_added_negated hcanon hfin]
    exact isZero_zero
  · left
    rw [heq]
    exact isZero_zero
  · exact .inr hnode

/-- A pass over an offset sum gives the offset sum of the next tree, unless it gives zero. -/
theorem simplified_offset (ha : Tidy a) (hfin : a.simplified.FiniteNumbers) :
    IsZero (offset a).simplified ∨ (offset a).simplified = offset a.simplified := by
  have hnext := ha.simplified
  obtain hzero | ⟨-, hnode⟩ := offset_cases ha hfin
  · exact .inl hzero
  -- both operands of the sum take a pass
  rw [hnode, simplified, simplified_negateNode hnext, binaryNode]
  split_ifs with hconst
  · left
    obtain ⟨v, hv⟩ := exists_constant (Bool.and_eq_true_iff.1 hconst).1
    rw [hv] at hnext hfin ⊢
    obtain ⟨f, rfl, hf⟩ := hnext.exists_fraction
    exact isZero_folded_sum hf hfin
  · exact .inr rfl

/-- Repeated passes over an offset sum give the offset sums of the trees that come of repeated passes,
unless they have given zero. -/
theorem iterate_offset (ha : Tidy a) (hfin : ∀ n, (simplified^[n + 1] a).FiniteNumbers) (n : ℕ) :
    IsZero (simplified^[n] (offset a)) ∨
      simplified^[n] (offset a) = offset (simplified^[n] a) := by
  induction n with
  | zero => exact .inr rfl
  | succ n ih =>
    have hfin' := hfin n
    rw [Function.iterate_succ_apply'] at hfin'
    rw [Function.iterate_succ_apply', Function.iterate_succ_apply']
    obtain hzero | heq := ih
    · rw [hzero.simplified_eq]
      exact .inl hzero
    · rw [heq]
      exact simplified_offset (ha.iterate n) hfin'

/-- Once a pass over the tree changes nothing, a pass over its offset sum gives zero. -/
theorem isZero_simplified_offset (ha : Tidy a) (hfixed : a.simplified = a)
    (hfin : a.FiniteNumbers) : IsZero (offset a).simplified := by
  obtain hzero | ⟨hcancels, -⟩ := offset_cases ha (by rwa [hfixed])
  · exact hzero
  · rw [hfixed, cancels_negateNode ha hfin] at hcancels
    cases hcancels

theorem iterate_of_isZero {n m : ℕ} (h : IsZero (simplified^[n] e)) (hm : n ≤ m) :
    IsZero (simplified^[m] e) := by
  induction m, hm using Nat.le_induction with
  | base => exact h
  | succ m _ ih =>
    rw [Function.iterate_succ_apply', ih.simplified_eq]
    exact ih

/-- The passes over the sum of a tree and its negation come to zero and stay there. -/
theorem exists_isZero_iterate (htidy : Tidy e.simplified)
    (hfin : ∀ n, (simplified^[n + 1] e).FiniteNumbers) :
    ∃ n ≤ e.weight, ∀ m ≥ n, IsZero (simplified^[m] (e.plus e.negated)) := by
  obtain ⟨n, hn, hfixed⟩ := exists_fixed_iterate e.simplified
  rw [Function.iterate_succ_apply'] at hfixed
  have hweight : e.simplified.weight ≤ e.weight := by
    obtain heq | hlt := (rewritesTo_simplified e).eq_or_weight_lt
    · rw [heq]
    · exact hlt.le
  refine ⟨n + 1, by omega, fun m hm => iterate_of_isZero ?_ hm⟩
  rw [plus_negated htidy, Function.iterate_succ_apply']
  obtain hzero | heq := iterate_offset htidy (fun k => hfin (k + 1)) n
  · rw [hzero.simplified_eq]
    exact hzero
  · rw [heq]
    exact isZero_simplified_offset (htidy.iterate n) hfixed (hfin n)

/-! ## No overflow -/

theorem passFits_ofPoly (p : Poly) : (ofPoly p).passFits = true := by
  unfold ofPoly
  split_ifs <;> rfl

theorem passFits_sumNode (ha : a.passFits = true) (hb : b.passFits = true) :
    (sumNode a b).passFits = true := by
  have hnode : (binary .sum a b).passFits = true := by
    have hfits : binaryFits .sum a.simplified b.simplified = true := by
      unfold binaryFits
      split <;> rfl
    rw [passFits, ha, hb, hfits]
    rfl
  unfold sumNode
  split_ifs
  · exact ha
  · exact hb
  · split
    · exact passFits_ofPoly _
    · rfl
  · split
    · exact passFits_ofPoly _
    · exact hnode
  · exact hnode

theorem passFits_negateNode (ha : a.passFits = true) : (negateNode a).passFits = true := by
  unfold negateNode
  split
  · rfl
  · exact (Bool.and_eq_true_iff.1 ha).1
  · rfl
  · exact Bool.and_eq_true_iff.2 ⟨ha, rfl⟩

theorem passFits_iterate_offset (ha : Tidy a) (hfin : ∀ n, (simplified^[n + 1] a).FiniteNumbers)
    (hfits : ∀ n, (simplified^[n] a).passFits = true) (n : ℕ) :
    (simplified^[n] (offset a)).passFits = true := by
  obtain ⟨f, heq, -⟩ | heq := iterate_offset ha hfin n
  · rw [heq]
    rfl
  · have hnext := hfits (n + 1)
    rw [Function.iterate_succ_apply'] at hnext
    rw [heq]
    exact passFits_sumNode (hfits n) (passFits_negateNode hnext)

/-- Every expression over fractions cancels against its negation. Unless a pass over the expression
overflows, or an infinity or NaN comes up in one, the sum and all passes over it have a result, and the
passes come to zero and stay there. They are no more than the expression weighs. -/
theorem plus_negated_comes_to_zero (hleaves : e.CanonicalLeaves) (hres : e.isResolved = true)
    (hpasses : ∀ n, ∃ t, passes? (n + 1) e = some t ∧ t.FiniteNumbers) :
    ∃ y s, e.negated? = some y ∧ e.plus? y = some s ∧
      ∃ n ≤ e.weight, ∀ m ≥ n, ∃ t, passes? m s = some t ∧ (t == zero .fraction) = true := by
  have htidy := tidy_simplified hleaves hres
  have hfits (n : ℕ) : (simplified^[n] e).passFits = true := by
    obtain ⟨t, ht, -⟩ := hpasses n
    exact (passes?_eq_some_iff.1 ht).1 n n.lt_succ_self
  have hfin (n : ℕ) : (simplified^[n + 1] e).FiniteNumbers := by
    obtain ⟨t, ht, hfinite⟩ := hpasses n
    rwa [(passes?_eq_some_iff.1 ht).2]
  have hs : e.simplified? = some e.simplified := simplified?_eq_some.2 ⟨hfits 0, rfl⟩
  have hy : e.negated.simplified? = some e.negated.simplified :=
    simplified?_eq_some.2 ⟨passFits_negateNode (hfits 1), rfl⟩
  have hsum (n : ℕ) : (simplified^[n] (e.plus e.negated)).passFits = true := by
    rw [plus_negated htidy]
    exact passFits_iterate_offset htidy (fun n => hfin (n + 1)) (fun n => hfits (n + 1)) n
  refine ⟨e.negated, e.plus e.negated, ?_, ?_, ?_⟩
  · rw [negated?, hs]
    rfl
  · rw [plus?, join?, hs, Option.bind_some, hy]
    rfl
  · obtain ⟨n, hn, hzero⟩ := exists_isZero_iterate htidy hfin
    exact ⟨n, hn, fun m hm =>
      ⟨_, passes?_eq_some_iff.2 ⟨fun j _ => hsum j, rfl⟩, (hzero m hm).beq_zero⟩⟩

/-- The expression `|-1 * y!|` becomes `1 * y!` in the first pass and `y!` in the second one. -/
theorem plus_negated_of_absolute_product :
    let factorial := unary .factorial (var "y" .fraction)
    let e := unary .abs (binary .product (constant (.fraction (.finite true 1 1))) factorial)
    passes? 1 e = some (binary .product (one .fraction) factorial) ∧
      (∀ n, passes? (n + 2) e = some factorial) ∧
      ∃ y s, e.negated? = some y ∧ e.plus? y = some s ∧
        ∃ n ≤ 7, ∀ m ≥ n, ∃ t, passes? m s = some t ∧ (t == zero .fraction) = true := by
  intro factorial e
  have hfirst : passes? 1 e = some (binary .product (one .fraction) factorial) := by
    with_unfolding_all rfl
  have hsecond : passes? 2 e = some factorial := by
    with_unfolding_all rfl
  have hrest (n : ℕ) : passes? (n + 2) e = some factorial := by
    rw [Nat.add_comm, passes?_add hsecond]
    exact passes?_of_fixed rfl n
  refine ⟨hfirst, hrest, ?_⟩
  apply plus_negated_comes_to_zero (e := e)
  · have hwf : (Fraction.finite true 1 1).WellFormed := by decide
    exact ⟨hwf, rfl⟩
  · rfl
  · intro n
    cases n with
    | zero => exact ⟨_, hfirst, rfl, trivial⟩
    | succ n => exact ⟨_, hrest n, trivial⟩

/-- The power of `3/2` to the exponent `-2 ^ 63` is resolved and over fractions, and nothing comes up in
the passes over it that is infinite or NaN: it overflows in the first one, and so does its negation. -/
theorem plus_negated_of_least_exponent :
    let e := binary .power (constant (.fraction (.finite false 3 2)))
      (constant (.fraction (.finite true Fraction.wordBound 1)))
    (e.CanonicalLeaves ∧ e.isResolved = true ∧ e.FiniteNumbers) ∧
      (∀ n, passes? (n + 1) e = none) ∧ e.negated? = none ∧ ∀ y, e.plus? y = none := by
  intro e
  have he : e.simplified? = none := rfl
  have hbase : (Fraction.finite false 3 2).WellFormed := by decide
  have hexponent : (Fraction.finite true Fraction.wordBound 1).WellFormed := by decide
  refine ⟨⟨⟨hbase, hexponent⟩, rfl, rfl, rfl⟩, fun n => ?_, ?_, fun y => ?_⟩
  · rw [passes?, he, Option.bind_none]
  · rw [negated?, he, Option.map_none]
  · rw [plus?, join?, he, Option.bind_none]

end Formula.Expr
