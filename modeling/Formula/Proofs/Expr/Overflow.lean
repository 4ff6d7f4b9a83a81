import Formula.Proofs.Expr.Passes
import Formula.Proofs.Laurent.Powers
import Mathlib.Order.Nat

/-!
# Passes without overflow

`Within d` bounds the powers that can come up in the simplification of a tree: those of products and
quotients add up, and a power multiplies them by 64. Besides, no pass may turn an exponent into the one
number that overflows. A pass keeps this bound (`Within.simplified`), and as long as it is below `2 ^ 63`
all passes have a result (`Within.passes?`).
-/

namespace Formula.Expr

open Fraction (wordBound)

variable {a b e : Expr} {op : BinaryOp} {v w x : Value} {d k m : ℕ}

/-! ## Operators and values -/

/-- No operator but the power overflows. -/
theorem fits_of_ne_power (hop : op ≠ .power) (v w : Value) : op.fits v w = true := by
  cases op with
  | power => exact absurd rfl hop
  | _ => rfl

theorem evaluateFits_binary (ha : a.evaluateFits x = true) (hb : b.evaluateFits x = true)
    (hop : ∀ v w, a.evaluate x = .ok v → b.evaluate x = .ok w → op.fits v w = true) :
    (binary op a b).evaluateFits x = true := by
  simp only [evaluateFits, ha, hb, Bool.true_and]
  split
  · rfl
  next v hv =>
    split
    · rfl
    next w hw => exact hop v w hv hw

theorem boundsFit_unary {op : UnaryOp} (ha : a.boundsFit = true)
    (h : (unary op a).isConstant = true → ∀ x, (unary op a).evaluateFits x = true) :
    (unary op a).boundsFit = true := by
  cases hconst : (unary op a).isConstant with
  | false => simp [boundsFit, ha, hconst]
  | true => simp [boundsFit, ha, h hconst]

theorem boundsFit_binary (ha : a.boundsFit = true) (hb : b.boundsFit = true)
    (h : (binary op a b).isConstant = true → ∀ x, (binary op a b).evaluateFits x = true) :
    (binary op a b).boundsFit = true := by
  cases hconst : (binary op a b).isConstant with
  | false => simp [boundsFit, ha, hb, hconst]
  | true => simp [boundsFit, ha, hb, h hconst]

/-- What can overflow where an operator meets simplified operands. -/
theorem binaryFits_of (hproduct : op = .product → productFits a b = true)
    (hquotient : op = .quotient → quotientFits a b = true)
    (hpower : op = .power → powerFits a b = true)
    (hfits : ∀ v w, a = constant v → b = constant w → op.fits v w = true) :
    binaryFits op a b = true := by
  unfold binaryFits
  split
  · exact hfits _ _ rfl rfl
  · split
    · exact hproduct rfl
    · exact hquotient rfl
    · exact hpower rfl
    · rfl

/-- The magnitude of the exponent fits, should the base be a fraction. -/
def ExponentFits (w : Value) : Prop :=
  ∀ f, w = .fraction f → f.exponentFits = true

theorem le_of_power_le (hk : polyPowerLimit * d ≤ k) : d ≤ k :=
  (Nat.le_mul_of_pos_left d (by decide)).trans hk

/-- A power of two values overflows only over fractions, and there by its exponent. -/
theorem powFits_eq_false_iff :
    v.powFits w = false ↔ ∃ f g, v = .fraction f ∧ w = .fraction g ∧ g.exponentFits = false := by
  constructor
  · intro h
    cases v with
    | fraction f =>
      cases w with
      | fraction g => exact ⟨f, g, rfl, rfl, h⟩
      | _ => cases h
    | _ => cases w <;> cases h
  · rintro ⟨f, g, rfl, rfl, h⟩
    exact h

theorem ExponentFits.powFits (h : ExponentFits w) (v : Value) : v.powFits w = true := by
  rw [← Bool.not_eq_false, powFits_eq_false_iff]
  rintro ⟨-, g, -, hg, hfits⟩
  exact Bool.false_ne_true (hfits.symm.trans (h g hg))

/-- Whatever number passes make of the exponent, its magnitude fits. -/
def FitsAsExponent (e : Expr) : Prop :=
  ∀ n w, simplified^[n] e = constant w → ExponentFits w

namespace FitsAsExponent

theorem constant (h : ExponentFits w) : FitsAsExponent (.constant w) := by
  intro n u hu
  rw [Function.iterate_fixed rfl] at hu
  cases hu
  exact h

theorem var (name : String) (kind : Kind) : FitsAsExponent (.var name kind) := by
  intro n u hu
  rw [Function.iterate_fixed rfl] at hu
  cases hu

theorem exponentFits (h : FitsAsExponent (.constant w)) : ExponentFits w :=
  h 0 w rfl

theorem simplified (h : FitsAsExponent e) : FitsAsExponent e.simplified :=
  fun n w hw => h (n + 1) w hw

theorem of_evaluate (h : FitsAsExponent e) (he : e.isConstant = true) (hw : e.evaluate x = .ok w) :
    ExponentFits w :=
  h 1 w (simplified_of_evaluate he hw)

end FitsAsExponent

/-! ## A bound on the powers of polynomials -/

/-- Whatever passes make of the tree and of its parts, the powers of polynomials are at most `d` in
magnitude, and the exponents fit. -/
inductive Within : ℕ → Expr → Prop
  | constant (d : ℕ) (v : Value) : Within d (constant v)
  | var (d : ℕ) (name : String) (kind : Kind) : Within d (var name kind)
  | hole (d : ℕ) : Within d hole
  | poly {d : ℕ} {p : Poly} (h : p.Within d) : Within d (poly p)
  | unary {d : ℕ} {a : Expr} (op : UnaryOp) (h : Within d a) : Within d (unary op a)
  | power {d k m : ℕ} {a b : Expr} (ha : Within d a) (hb : Within k b) (hexponent : FitsAsExponent b)
      (hd : polyPowerLimit * d ≤ m) (hk : k ≤ m) : Within m (binary .power a b)
  /-- Products and quotients. -/
  | multiplied {d k m : ℕ} {op : BinaryOp} {a b : Expr} (hop : op = .product ∨ op = .quotient)
      (ha : Within d a) (hb : Within k b) (hm : d + k ≤ m) : Within m (binary op a b)
  | binary {d : ℕ} {op : BinaryOp} {a b : Expr}
      (hop : op ∉ [BinaryOp.product, .quotient, .power]) (ha : Within d a) (hb : Within d b) :
      Within d (binary op a b)

namespace Within

theorem mono (h : Within d e) (hdk : d ≤ k) : Within k e := by
  induction h generalizing k with
  | constant => exact .constant _ _
  | var => exact .var _ _ _
  | hole => exact .hole _
  | poly h => exact .poly (h.mono hdk)
  | unary op _ ih => exact .unary op (ih hdk)
  | power ha hb hexponent hd hm _ _ => exact .power ha hb hexponent (hd.trans hdk) (hm.trans hdk)
  | multiplied hop ha hb hm _ _ => exact .multiplied hop ha hb (hm.trans hdk)
  | binary hop _ _ iha ihb => exact .binary hop (iha hdk) (ihb hdk)

theorem operand {op : UnaryOp} (h : Within d (.unary op a)) : Within d a := by
  cases h with
  | unary _ h => exact h

theorem operands_of_multiplied (hop : op = .product ∨ op = .quotient)
    (h : Within m (.binary op a b)) : ∃ d k, Within d a ∧ Within k b ∧ d + k ≤ m := by
  cases h with
  | multiplied _ ha hb hm => exact ⟨_, _, ha, hb, hm⟩
  | power => simp at hop
  | binary hop' => rcases hop with rfl | rfl <;> simp at hop'

theorem operands_of_sum (h : Within d (.binary .sum a b)) : Within d a ∧ Within d b := by
  cases h with
  | multiplied hop => simp at hop
  | binary _ ha hb => exact ⟨ha, hb⟩

theorem operands_of_power (h : Within m (.binary .power a b)) :
    ∃ d k, Within d a ∧ Within k b ∧ FitsAsExponent b ∧ polyPowerLimit * d ≤ m ∧ k ≤ m := by
  cases h with
  | power ha hb hexponent hd hk => exact ⟨_, _, ha, hb, hexponent, hd, hk⟩
  | multiplied hop => simp at hop
  | binary hop => simp at hop

theorem zero (d : ℕ) (k : Kind) : Within d (zero k) := .constant d _

theorem one (d : ℕ) (k : Kind) : Within d (one k) := .constant d _

theorem ofPoly {p : Poly} (h : p.Within d) : Within d (ofPoly p) := by
  unfold Expr.ofPoly
  split_ifs
  · exact zero d _
  · exact poly h

/-! ### Node builders -/

theorem negateNode (h : Within d e) : Within d (negateNode e) := by
  unfold Expr.negateNode
  split
  · exact constant d _
  · exact h.operand
  · cases h with
    | poly h => exact poly h.negated
  · exact unary _ h

theorem signedAbs (negative : Bool) (h : Within d e) : Within d (signedAbs negative e) := by
  unfold Expr.signedAbs
  split_ifs
  · exact h.negateNode
  · exact h

theorem polySum? {p : Poly} (hp : polySum? a b = some p) (ha : Within d a) (hb : Within d b) :
    p.Within d := by
  unfold Expr.polySum? at hp
  split at hp
  · cases ha with
    | poly ha =>
      cases hb with
      | poly hb => exact Poly.Within.of_add? hp ha hb
  · cases hp

theorem sumNode (ha : Within d a) (hb : Within d b) : Within d (sumNode a b) := by
  have hnode : Within d (.binary .sum a b) := binary (by decide) ha hb
  unfold Expr.sumNode
  split_ifs
  · exact ha
  · exact hb
  · split
    · next hp => exact ofPoly (polySum? hp ha hb)
    · exact zero d _
  · split
    · next hp => exact ofPoly (polySum? hp ha hb)
    · exact hnode
  · exact hnode

theorem polyProduct? {p : Poly} (hp : polyProduct? a b = some p) (ha : Within d a)
    (hb : Within k b) : p.Within (d + k) := by
  unfold Expr.polyProduct? at hp
  split at hp
  · cases ha with
    | poly ha =>
      cases hb with
      | poly hb => exact Poly.Within.of_mul? hp ha hb
  · cases hp

theorem of_cancelQuotient? {kind : Kind} (h : cancelQuotient? kind a b = some e)
    (ha : Within d a) : Within d e := by
  unfold cancelQuotient? at h
  split at h
  · obtain ⟨d₁, k₁, hn, -, hle⟩ := ha.operands_of_multiplied (.inr rfl)
    split_ifs at h
    · cases h
      exact hn.mono (by omega)
    · split at h
      · split_ifs at h
        cases h
        exact one d _
      · cases h
  · cases h

theorem productNode (ha : Within d a) (hb : Within k b) : Within (d + k) (productNode a b) := by
  have hnode : Within (d + k) (.binary .product a b) := multiplied (.inl rfl) ha hb le_rfl
  unfold Expr.productNode
  split_ifs
  · exact zero _ _
  · exact ha.mono (by omega)
  · exact hb.mono (by omega)
  · split
    · next hp => exact ofPoly (polyProduct? hp ha hb)
    · split
      · next hc => exact (of_cancelQuotient? hc ha).mono (by omega)
      · split
        · next hc => exact (of_cancelQuotient? hc hb).mono (by omega)
        · exact hnode
  · exact hnode

theorem polyQuotient? {p : Poly} (hp : polyQuotient? a b = some p) (ha : Within d a)
    (hb : Within k b) : p.Within (d + k) := by
  unfold Expr.polyQuotient? at hp
  split at hp
  · split_ifs at hp
    cases ha with
    | poly ha =>
      cases hb with
      | poly hb =>
        have hinv := hb.power (-1)
        rw [Int.natAbs_neg, Int.natAbs_one, Nat.one_mul] at hinv
        exact Poly.Within.of_mul? hp ha hinv
  · cases hp

theorem quotientNode (ha : Within d a) (hb : Within k b) : Within (d + k) (quotientNode a b) := by
  have hnode : Within (d + k) (.binary .quotient a b) := multiplied (.inr rfl) ha hb le_rfl
  unfold Expr.quotientNode
  split_ifs
  · exact ha.mono (by omega)
  · exact one _ _
  · split
    · next hp => exact ofPoly (polyQuotient? hp ha hb)
    · split
      · obtain ⟨d₁, k₁, hn, hd, hle⟩ := ha.operands_of_multiplied (.inr rfl)
        split_ifs
        · exact multiplied (.inr rfl) (one 0 _) hd (by omega)
        · exact multiplied (.inr rfl) hn (hd.productNode hb) (by omega)
      · exact hnode
  · exact hnode

theorem polyPower? {p : Poly} (hp : polyPower? a w = some p) (ha : Within d a) :
    p.Within (polyPowerLimit * d) := by
  unfold Expr.polyPower? at hp
  split at hp
  · split_ifs at hp with hn
    cases hp
    cases ha with
    | poly ha => exact (ha.power _).mono (Nat.mul_le_mul_right d hn.1)
  · cases hp

theorem powerNode (ha : Within d a) (hb : Within k b) (hexponent : FitsAsExponent b)
    (hd : polyPowerLimit * d ≤ m) (hk : k ≤ m) : Within m (powerNode a b) := by
  have hnode : Within m (.binary .power a b) := power ha hb hexponent hd hk
  unfold Expr.powerNode
  split
  · split_ifs
    · exact ha.mono (le_of_power_le hd)
    · exact one _ _
    · split
      · next hp => exact (ofPoly (polyPower? hp ha)).mono hd
      · exact hnode
    · exact hnode
  · exact hnode

theorem absNode (h : Within d e) : Within d (absNode e) := by
  fun_induction Expr.absNode e with
  | case1 => exact constant d _
  | case2 => exact h
  | case3 _ ih => exact ih h.operand
  | case4 =>
    obtain ⟨ha, hb⟩ := h.operands_of_sum
    exact (ha.signedAbs _).sumNode (hb.signedAbs _)
  | case7 =>
    obtain ⟨_, _, ha, hb, hle⟩ := h.operands_of_multiplied (.inl rfl)
    exact multiplied (.inl rfl) (ha.signedAbs _) (hb.signedAbs _) hle
  | case9 =>
    obtain ⟨_, _, ha, hb, hle⟩ := h.operands_of_multiplied (.inr rfl)
    exact multiplied (.inr rfl) (ha.signedAbs _) (hb.signedAbs _) hle
  | case11 =>
    obtain ⟨_, _, ha, hb, hexponent, hd, hk⟩ := h.operands_of_power
    exact power (ha.signedAbs _) hb hexponent hd hk
  | case13 => exact h.signedAbs _
  | _ => exact unary _ h

/-! ### Passes -/

theorem folded (h : Within d e) : Within d e.folded := by
  unfold Expr.folded
  split
  · exact constant d _
  · exact h

theorem unaryNode (op : UnaryOp) (h : Within d a) : Within d (unaryNode op a) := by
  unfold Expr.unaryNode
  split_ifs
  · exact (unary op h).folded
  · split
    · exact h.absNode
    · exact h.negateNode
    · exact unary _ h

theorem binaryNode_multiplied (hop : op = .product ∨ op = .quotient) (ha : Within d a)
    (hb : Within k b) : Within (d + k) (binaryNode op a b) := by
  unfold Expr.binaryNode
  split_ifs
  · exact (multiplied hop ha hb le_rfl).folded
  · rcases hop with rfl | rfl
    · exact ha.productNode hb
    · exact ha.quotientNode hb

theorem binaryNode_power (ha : Within d a) (hb : Within k b) (hexponent : FitsAsExponent b)
    (hd : polyPowerLimit * d ≤ m) (hk : k ≤ m) : Within m (binaryNode .power a b) := by
  unfold Expr.binaryNode
  split_ifs
  · exact (power ha hb hexponent hd hk).folded
  · exact ha.powerNode hb hexponent hd hk

theorem binaryNode (hop : op ∉ [BinaryOp.product, .quotient, .power]) (ha : Within d a)
    (hb : Within d b) : Within d (binaryNode op a b) := by
  have hnode := binary hop ha hb
  unfold Expr.binaryNode
  split_ifs
  · exact hnode.folded
  · split
    · exact ha.sumNode hb
    · exact ha.sumNode hb.negateNode
    · simp at hop
    · simp at hop
    · simp at hop
    · exact hnode

/-- A pass keeps the bound. -/
theorem simplified (h : Within d e) : Within d e.simplified := by
  induction h with
  | constant => exact .constant _ _
  | var => exact .var _ _ _
  | hole => exact .hole _
  | poly h => exact .poly h
  | unary op _ ih => exact ih.unaryNode op
  | power _ _ hexponent hd hk iha ihb => exact iha.binaryNode_power ihb hexponent.simplified hd hk
  | multiplied hop _ _ hm iha ihb => exact (iha.binaryNode_multiplied hop ihb).mono hm
  | binary hop _ _ iha ihb => exact iha.binaryNode hop ihb

/-! ### Nothing overflows -/

theorem evaluateFits (h : Within d e) (he : e.isConstant = true) (x : Value) :
    e.evaluateFits x = true := by
  induction h with
  | constant => rfl
  | var | hole | poly => cases he
  | unary _ _ ih => exact ih he
  | power _ _ hexponent _ _ iha ihb =>
    obtain ⟨ha, hb⟩ := Bool.and_eq_true_iff.1 he
    exact evaluateFits_binary (iha ha) (ihb hb) fun v w _ hw => (hexponent.of_evaluate hb hw).powFits v
  | multiplied hop _ _ _ iha ihb =>
    obtain ⟨ha, hb⟩ := Bool.and_eq_true_iff.1 he
    refine evaluateFits_binary (iha ha) (ihb hb) fun v w _ _ => fits_of_ne_power ?_ v w
    rcases hop with rfl | rfl <;> decide
  | binary hop _ _ iha ihb =>
    obtain ⟨ha, hb⟩ := Bool.and_eq_true_iff.1 he
    refine evaluateFits_binary (iha ha) (ihb hb) fun v w _ _ => fits_of_ne_power ?_ v w
    rintro rfl
    simp at hop

theorem boundsFit (h : Within d e) : e.boundsFit = true := by
  induction h with
  | constant => simp [Expr.boundsFit, Expr.evaluateFits]
  | var | hole | poly => simp [Expr.boundsFit, Expr.isConstant]
  | unary op h ih => exact boundsFit_unary ih (unary op h).evaluateFits
  | power ha hb hexponent hd hk iha ihb =>
    exact boundsFit_binary iha ihb (power ha hb hexponent hd hk).evaluateFits
  | multiplied hop ha hb hm iha ihb =>
    exact boundsFit_binary iha ihb (multiplied hop ha hb hm).evaluateFits
  | binary hop ha hb iha ihb => exact boundsFit_binary iha ihb (binary hop ha hb).evaluateFits

theorem productFits (ha : Within d a) (hb : Within k b) (hlt : d + k < wordBound) :
    productFits a b = true := by
  unfold Expr.productFits
  split
  · cases ha with
    | poly ha =>
      cases hb with
      | poly hb => exact Poly.Within.productFits ha hb hlt
  · rfl

theorem quotientFits (ha : Within d a) (hb : Within k b) (hlt : d + k < wordBound) :
    quotientFits a b = true := by
  unfold Expr.quotientFits
  apply Bool.or_eq_true_iff.2
  right
  split
  · cases ha with
    | poly ha =>
      cases hb with
      | poly hb =>
        have hinv := hb.power (-1)
        have hfits : Poly.powerFits _ (-1) = true := hb.powerFits (n := -1) (by simp; omega)
        rw [Int.natAbs_neg, Int.natAbs_one, Nat.one_mul] at hinv
        rw [hfits, ha.productFits hinv hlt, Bool.and_true, Bool.or_true]
  · obtain ⟨d₁, k₁, -, hd, hle⟩ := ha.operands_of_multiplied (.inr rfl)
    rw [hd.productFits hb (by omega), Bool.or_true]
  · rfl

theorem powerFits (ha : Within d a) (hlt : polyPowerLimit * d < wordBound) (b : Expr) :
    powerFits a b = true := by
  unfold Expr.powerFits
  split
  · cases ha with
    | poly ha =>
      apply Bool.or_eq_true_iff.2
      right
      split
      · next n _ =>
        by_cases hn : n.natAbs ≤ polyPowerLimit
        · have hmul := Nat.mul_le_mul_right d hn
          rw [ha.powerFits (by omega), Bool.or_true]
        · simp [hn]
      · rfl
  · rfl

theorem absFits (h : Within d e) : e.absFits = true := by
  fun_induction Expr.absFits e with
  | case1 | case2 => rfl
  | case3 _ ih => exact ih h.operand
  | case4 =>
    obtain ⟨ha, hb⟩ := h.operands_of_sum
    rw [ha.boundsFit, hb.boundsFit, Bool.and_true]
  | case5 =>
    obtain ⟨_, _, ha, hb, -⟩ := h.operands_of_multiplied (.inl rfl)
    rw [ha.boundsFit, hb.boundsFit, Bool.and_true]
  | case6 =>
    obtain ⟨_, _, ha, hb, -⟩ := h.operands_of_multiplied (.inr rfl)
    rw [ha.boundsFit, hb.boundsFit, Bool.and_true]
  | case7 =>
    obtain ⟨_, _, ha, -⟩ := h.operands_of_power
    exact ha.boundsFit
  | case8 => exact h.boundsFit

theorem unaryFits (op : UnaryOp) (h : Within d a) : unaryFits op a = true := by
  unfold Expr.unaryFits
  split
  · exact h.absFits
  · rfl

theorem binaryFits_power (ha : Within d a) (hexponent : FitsAsExponent b)
    (hlt : polyPowerLimit * d < wordBound) : binaryFits .power a b = true := by
  apply binaryFits_of
  · exact nofun
  · exact nofun
  · exact fun _ => ha.powerFits hlt _
  · rintro v w - rfl
    exact hexponent.exponentFits.powFits v

theorem binaryFits_multiplied (hop : op = .product ∨ op = .quotient) (ha : Within d a)
    (hb : Within k b) (hlt : d + k < wordBound) : binaryFits op a b = true := by
  apply binaryFits_of
  · exact fun _ => ha.productFits hb hlt
  · exact fun _ => ha.quotientFits hb hlt
  · rintro rfl
    simp at hop
  · refine fun v w _ _ => fits_of_ne_power ?_ v w
    rintro rfl
    simp at hop

theorem binaryFits (hop : op ∉ [BinaryOp.product, .quotient, .power]) (a b : Expr) :
    binaryFits op a b = true := by
  simp only [List.mem_cons, List.not_mem_nil, or_false, not_or] at hop
  apply binaryFits_of
  · exact fun h => absurd h hop.1
  · exact fun h => absurd h hop.2.1
  · exact fun h => absurd h hop.2.2
  · exact fun v w _ _ => fits_of_ne_power hop.2.2 v w

/-- Below the bound of 64-bit integers, nothing overflows in a pass. -/
theorem passFits (h : Within d e) (hlt : d < wordBound) : e.passFits = true := by
  induction h with
  | constant | var | hole | poly => rfl
  | unary op h ih =>
    rw [Expr.passFits, ih hlt]
    exact h.simplified.unaryFits op
  | power ha _ hexponent hd hk iha ihb =>
    rw [Expr.passFits, iha ((le_of_power_le hd).trans_lt hlt), ihb (hk.trans_lt hlt)]
    exact ha.simplified.binaryFits_power hexponent.simplified (hd.trans_lt hlt)
  | multiplied hop ha hb hm iha ihb =>
    rw [Expr.passFits, iha (by omega), ihb (by omega)]
    exact ha.simplified.binaryFits_multiplied hop hb.simplified (hm.trans_lt hlt)
  | binary hop ha hb iha ihb =>
    rw [Expr.passFits, iha hlt, ihb hlt]
    exact binaryFits hop _ _

theorem iterate (h : Within d e) (n : ℕ) : Within d (Expr.simplified^[n] e) := by
  induction n with
  | zero => exact h
  | succ n ih =>
    rw [Function.iterate_succ_apply']
    exact ih.simplified

/-- Below the bound of 64-bit integers, all passes have a result. -/
theorem passes? (h : Within d e) (hlt : d < wordBound) (n : ℕ) :
    Expr.passes? n e = some (Expr.simplified^[n] e) :=
  passes?_eq_some_iff.2 ⟨fun j _ => (h.iterate j).passFits hlt, rfl⟩

end Within

end Formula.Expr
