import Formula.Proofs.Expr.Convergence
import Formula.Proofs.Expr.Folding
import Formula.Proofs.Laurent.Laws

/-!
# Trees that a pass leaves behind

In a tree of fraction kind that went through a pass, every constant is a well-formed fraction, every
polynomial is canonical, and no negation stands where it could have been carried out (`Tidy`). All node
builders keep to this shape (`tidy_simplified`). On trees of this shape negation is an involution
(`negateNode_negateNode`), and it does not matter whether it comes before or after a pass
(`simplified_negateNode`).
-/

namespace Formula.Expr

/-- The shape of simplified trees over fractions: a negation has an operand that only a further node can
negate. -/
inductive Tidy : Expr → Prop
  | constant {f : Fraction} (hf : f.WellFormed) : Tidy (constant (.fraction f))
  | var (name : String) : Tidy (var name .fraction)
  | poly {p : Laurent Fraction} (hp : p.Canonical) : Tidy (poly (.fraction p))
  | unary {op : UnaryOp} {a : Expr} (hop : op ≠ .negate) (ha : Tidy a) : Tidy (unary op a)
  | negate {a : Expr} (ha : Tidy a) (hneg : negateNode a = unary .negate a) :
      Tidy (unary .negate a)
  | binary (op : BinaryOp) {a b : Expr} (ha : Tidy a) (hb : Tidy b) : Tidy (binary op a b)

variable {a b e : Expr} {op : UnaryOp} {p q : Poly} {v : Value} {k : Kind}

namespace Tidy

theorem kind_eq (h : Tidy a) : a.kind = .fraction := by
  induction h with
  | unary _ _ ih | negate _ _ ih => exact ih
  | binary op _ _ iha ihb => rw [kind, iha, ihb, Kind.combine_self]
  | _ => rfl

theorem exists_fraction (h : Tidy (.constant v)) :
    ∃ f : Fraction, v = .fraction f ∧ f.WellFormed := by
  cases h with
  | constant hf => exact ⟨_, rfl, hf⟩

theorem exists_laurent (h : Tidy (.poly p)) :
    ∃ r : Laurent Fraction, p = .fraction r ∧ r.Canonical := by
  cases h with
  | poly hp => exact ⟨_, rfl, hp⟩

theorem operand (h : Tidy (.unary op a)) : Tidy a := by
  cases h with
  | unary _ ha => exact ha
  | negate ha => exact ha

theorem operands {op : BinaryOp} (h : Tidy (.binary op a b)) : Tidy a ∧ Tidy b := by
  cases h with
  | binary _ ha hb => exact ⟨ha, hb⟩

theorem abs (h : Tidy a) : Tidy (.unary .abs a) :=
  .unary (by decide) h

theorem zero : Tidy (zero .fraction) :=
  .constant Fraction.wellFormed_zero

theorem one : Tidy (one .fraction) :=
  .constant Fraction.wellFormed_one

theorem ofPoly {r : Laurent Fraction} (hr : r.Canonical) : Tidy (ofPoly (.fraction r)) := by
  unfold Expr.ofPoly
  split_ifs
  · exact zero
  · exact .poly hr

end Tidy

/-! ## Negation -/

theorem negateNode_unary (hop : op ≠ .negate) (a : Expr) :
    negateNode (unary op a) = unary .negate (unary op a) := by
  cases op with
  | negate => contradiction
  | _ => rfl

theorem tidy_negateNode (h : Tidy a) : Tidy (negateNode a) := by
  cases h with
  | constant hf => exact .constant (Fraction.wellFormed_neg _)
  | var name => exact .negate (.var name) rfl
  | poly hp => exact .poly hp.negated
  | unary hop ha =>
    rw [negateNode_unary hop]
    exact .negate (.unary hop ha) (negateNode_unary hop _)
  | negate ha => exact ha
  | binary op ha hb => exact .negate (.binary op ha hb) rfl

/-- On tidy trees negation is an involution. -/
theorem negateNode_negateNode (h : Tidy a) : negateNode (negateNode a) = a := by
  cases h with
  | @constant f hf =>
    show constant (.fraction (- -f)) = _
    rw [Fraction.neg_neg hf]
  | @poly p hp =>
    show poly (.fraction p.negated.negated) = _
    rw [hp.negated_negated]
  | unary hop => rw [negateNode_unary hop, negateNode]
  | negate _ hneg => exact hneg
  | _ => rfl

/-! ## Node builders -/

theorem tidy_signedAbs (negative : Bool) (h : Tidy a) : Tidy (signedAbs negative a) := by
  unfold signedAbs
  split_ifs
  · exact tidy_negateNode h
  · exact h

/-- The polynomials that are joined are canonical, and so is what comes of them. -/
theorem tidy_of_polySum? (ha : Tidy a) (hb : Tidy b) (h : polySum? a b = some p) :
    Tidy (ofPoly p) := by
  unfold polySum? at h
  split at h
  · obtain ⟨r, rfl, hr⟩ := ha.exists_laurent
    obtain ⟨s, rfl, hs⟩ := hb.exists_laurent
    cases h
    exact .ofPoly (hr.added hs)
  · cases h

theorem tidy_of_polyProduct? (ha : Tidy a) (hb : Tidy b) (h : polyProduct? a b = some p) :
    Tidy (ofPoly p) := by
  unfold polyProduct? at h
  split at h
  · obtain ⟨r, rfl, -⟩ := ha.exists_laurent
    obtain ⟨s, rfl, -⟩ := hb.exists_laurent
    cases h
    exact .ofPoly (Laurent.canonical_multiplied r s)
  · cases h

theorem tidy_of_polyQuotient? (ha : Tidy a) (hb : Tidy b) (h : polyQuotient? a b = some p) :
    Tidy (ofPoly p) := by
  unfold polyQuotient? at h
  split at h
  · obtain ⟨r, rfl, -⟩ := ha.exists_laurent
    obtain ⟨s, rfl, -⟩ := hb.exists_laurent
    split_ifs at h
    cases h
    exact .ofPoly (Laurent.canonical_multiplied r _)
  · cases h

theorem tidy_of_polyPower? (ha : Tidy a) (h : polyPower? a v = some p) : Tidy (ofPoly p) := by
  unfold polyPower? at h
  split at h
  · obtain ⟨r, rfl, -⟩ := ha.exists_laurent
    split_ifs at h
    cases h
    exact .ofPoly (Laurent.canonical_power r _)
  · cases h

theorem tidy_sumNode (ha : Tidy a) (hb : Tidy b) : Tidy (sumNode a b) := by
  unfold sumNode
  split_ifs
  · exact ha
  · exact hb
  · split
    · next h => exact tidy_of_polySum? ha hb h
    · rw [ha.kind_eq]
      exact .zero
  · split
    · next h => exact tidy_of_polySum? ha hb h
    · exact .binary .sum ha hb
  · exact .binary .sum ha hb

theorem tidy_of_cancelQuotient? (ha : Tidy a) (hk : k = .fraction)
    (h : cancelQuotient? k a b = some e) : Tidy e := by
  unfold cancelQuotient? at h
  split at h
  · split_ifs at h
    · cases h
      exact ha.operands.1
    · split at h
      · split_ifs at h
        cases h
        rw [hk]
        exact .one
      · cases h
  · cases h

theorem tidy_productNode (ha : Tidy a) (hb : Tidy b) : Tidy (productNode a b) := by
  unfold productNode
  split_ifs
  · rw [ha.kind_eq]
    exact .zero
  · exact ha
  · exact hb
  · split
    · next h => exact tidy_of_polyProduct? ha hb h
    · split
      · next h => exact tidy_of_cancelQuotient? ha ha.kind_eq h
      · split
        · next h => exact tidy_of_cancelQuotient? hb ha.kind_eq h
        · exact .binary .product ha hb
  · exact .binary .product ha hb

theorem tidy_quotientNode (ha : Tidy a) (hb : Tidy b) : Tidy (quotientNode a b) := by
  unfold quotientNode
  split_ifs
  · exact ha
  · rw [ha.kind_eq]
    exact .one
  · split
    · next h => exact tidy_of_polyQuotient? ha hb h
    · split
      · obtain ⟨hn, hd⟩ := ha.operands
        split_ifs
        · rw [ha.kind_eq]
          exact .binary .quotient .one hd
        · exact .binary .quotient hn (tidy_productNode hd hb)
      · exact .binary .quotient ha hb
  · exact .binary .quotient ha hb

theorem tidy_powerNode (ha : Tidy a) (hb : Tidy b) : Tidy (powerNode a b) := by
  unfold powerNode
  split
  · split_ifs
    · exact ha
    · rw [ha.kind_eq]
      exact .one
    · split
      · next h => exact tidy_of_polyPower? ha h
      · exact .binary .power ha hb
    · exact .binary .power ha hb
  · exact .binary .power ha hb

theorem tidy_absNode (h : Tidy a) : Tidy (absNode a) := by
  fun_induction absNode a with
  | case1 value =>
    obtain ⟨f, rfl, -⟩ := h.exists_fraction
    exact .constant (Fraction.wellFormed_abs f)
  | case2 => exact h
  | case3 operand ih => exact ih h.operand
  | case4 a b =>
    exact tidy_sumNode (tidy_signedAbs _ h.operands.1) (tidy_signedAbs _ h.operands.2)
  | case7 a b | case9 a b =>
    exact .binary _ (tidy_signedAbs _ h.operands.1) (tidy_signedAbs _ h.operands.2)
  | case11 a b => exact .binary _ (tidy_signedAbs _ h.operands.1) h.operands.2
  | case13 => exact tidy_signedAbs _ h
  | _ => exact h.abs

/-! ## Passes -/

theorem tidy_unaryNode (op : UnaryOp) (ha : Tidy a) : Tidy (unaryNode op a) := by
  unfold unaryNode
  split_ifs with hconst
  · obtain ⟨v, rfl⟩ := exists_constant hconst
    obtain ⟨f, rfl, -⟩ := ha.exists_fraction
    obtain ⟨g, hg, hwf⟩ := op.apply_fraction f
    rw [folded_unary, hg]
    exact .constant hwf
  · split
    · exact tidy_absNode ha
    · exact tidy_negateNode ha
    · next hop => exact .unary hop ha

theorem tidy_binaryNode (op : BinaryOp) (ha : Tidy a) (hb : Tidy b) : Tidy (binaryNode op a b) := by
  unfold binaryNode
  split_ifs with hconst
  · obtain ⟨hac, hbc⟩ := Bool.and_eq_true_iff.1 hconst
    obtain ⟨v, rfl⟩ := exists_constant hac
    obtain ⟨w, rfl⟩ := exists_constant hbc
    obtain ⟨f, rfl, hf⟩ := ha.exists_fraction
    obtain ⟨g, rfl, hg⟩ := hb.exists_fraction
    cases h : op.evaluate? (.fraction f) (.fraction g) with
    | none =>
      simp only [folded, evaluate, h]
      exact .binary op ha hb
    | some r =>
      obtain ⟨r, rfl, hr⟩ := BinaryOp.evaluate?_fraction hf hg h
      rw [folded_binary_of_some h]
      exact .constant hr
  · split
    · exact tidy_sumNode ha hb
    · exact tidy_sumNode ha (tidy_negateNode hb)
    · exact tidy_productNode ha hb
    · exact tidy_quotientNode ha hb
    · exact tidy_powerNode ha hb
    · exact .binary _ ha hb

/-- The leaves are of fraction kind and hold well-formed fractions or canonical polynomials, which are all
that constructors and operations make. -/
def CanonicalLeaves : Expr → Prop
  | constant (.fraction f) => f.WellFormed
  | constant _ => False
  | var _ kind => kind = .fraction
  | poly (.fraction p) => p.Canonical
  | poly _ => False
  | unary _ operand => operand.CanonicalLeaves
  | binary _ left right => left.CanonicalLeaves ∧ right.CanonicalLeaves
  | hole => True

/-- A pass makes a tree tidy if no operand is missing. -/
theorem tidy_simplified (hleaves : e.CanonicalLeaves) (hres : e.isResolved = true) :
    Tidy e.simplified := by
  induction e with
  | constant v =>
    cases v with
    | fraction f => exact .constant hleaves
    | _ => exact hleaves.elim
  | var name kind =>
    obtain rfl : kind = .fraction := hleaves
    exact .var name
  | poly p =>
    cases p with
    | fraction p => exact .poly hleaves
    | _ => exact hleaves.elim
  | unary op a ih => exact tidy_unaryNode op (ih hleaves hres)
  | binary op a b iha ihb =>
    obtain ⟨hra, hrb⟩ := Bool.and_eq_true_iff.1 hres
    exact tidy_binaryNode op (iha hleaves.1 hra) (ihb hleaves.2 hrb)
  | hole => cases hres

/-- A pass keeps a tidy tree tidy. -/
theorem Tidy.simplified (h : Tidy e) : Tidy e.simplified := by
  induction h with
  | unary _ _ ih => exact tidy_unaryNode _ ih
  | negate _ _ ih => exact tidy_unaryNode _ ih
  | binary op _ _ iha ihb => exact tidy_binaryNode op iha ihb
  | constant hf => exact .constant hf
  | var name => exact .var name
  | poly hp => exact .poly hp

theorem Tidy.iterate (h : Tidy e) (n : ℕ) : Tidy (Expr.simplified^[n] e) := by
  induction n with
  | zero => exact h
  | succ n ih =>
    rw [Function.iterate_succ_apply']
    exact ih.simplified

/-- A pass over a negation is the negation of a pass. -/
theorem simplified_unary_negate (a : Expr) :
    (unary .negate a).simplified = negateNode a.simplified := by
  rw [simplified, unaryNode]
  split_ifs with hconst
  · obtain ⟨v, hv⟩ := exists_constant hconst
    rw [hv]
    rfl
  · rfl

/-- A tidy tree may be negated before or after a pass. -/
theorem simplified_negateNode (h : Tidy e) : (negateNode e).simplified = negateNode e.simplified := by
  cases h with
  | unary hop ha => rw [negateNode_unary hop, simplified_unary_negate]
  | @negate a ha hneg =>
    rw [simplified_unary_negate, negateNode_negateNode ha.simplified]
    rfl
  | binary op ha hb => exact simplified_unary_negate _
  | _ => rfl

end Formula.Expr
