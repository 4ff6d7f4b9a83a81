import Formula.Expr.Fingerprint
import Formula.Proofs.Expr.Leaf

/-!
# Fingerprints of equal expressions

Equality compares fractions by cross-multiplication, term by term inside a polynomial, and takes the two
zeros of a machine type for one number. The fingerprint is made of lowest terms and of the words of
`x + 0` instead. Both depend on the values of the numbers alone, so equal expressions have equal
fingerprints (`fingerprint_eq_of_beq`).
-/

namespace Formula

/-! ## Leaves -/

theorem Fraction.fingerprint_congr {f g : Fraction} (hf : f.WellFormed) (hg : g.WellFormed)
    (h : (f == g) = true) : f.fingerprint = g.fingerprint := by
  rw [fingerprint, fingerprint, simplified_eq_of_value_eq hf hg ((beq_iff hf hg).1 h).1]

theorem Value.fingerprint_congr {v w : Value} (hv : v.WellFormed) (hw : w.WellFormed)
    (h : (v == w) = true) : v.fingerprint = w.fingerprint := by
  cases beq_iff_equal.1 h with
  | double hxy => simp only [fingerprint, kind, hxy.add_zero_congr (by decide)]
  | single hxy => simp only [fingerprint, kind, hxy.add_zero_congr (by decide)]
  | fraction hfg => simp only [fingerprint, kind, Fraction.fingerprint_congr hv hw hfg]

namespace Poly

theorem fingerprint_eq (p : Poly) :
    p.fingerprint = .kind p.kind ::
      (p.terms.map fun t => .power t.1 :: t.2.fingerprint).reverse.flatten := by
  cases p <;>
  · simp only [fingerprint, query, terms, Laurent.descending, List.flatMap_def, List.map_reverse,
      List.map_map]
    rfl

theorem fingerprint_congr {p q : Poly} (hp : p.WellFormed) (hq : q.WellFormed)
    (h : (p == q) = true) : p.fingerprint = q.fingerprint := by
  rw [wellFormed_iff] at hp hq
  obtain ⟨hkind, hterms⟩ := beq_iff.1 h
  rw [fingerprint_eq, fingerprint_eq, hkind]
  congr 3
  rw [← List.forall₂_eq_eq_eq, List.forall₂_map_left_iff, List.forall₂_map_right_iff]
  obtain ⟨hlength, hzip⟩ := List.forall₂_iff_zip.1 hterms
  refine List.forall₂_iff_zip.2 ⟨hlength, fun {t u} htu => ?_⟩
  obtain ⟨hpower, hcoefficient⟩ := hzip htu
  obtain ⟨ht, hu⟩ := List.of_mem_zip htu
  rw [hpower, Value.fingerprint_congr (hp t ht) (hq u hu) hcoefficient]

end Poly

/-! ## Expressions -/

namespace Expr

/-- All fractions in the leaves are well formed. They need not be in lowest terms. -/
def WellFormed : Expr → Prop
  | constant v => v.WellFormed
  | poly p => p.WellFormed
  | unary _ operand => operand.WellFormed
  | binary _ left right => left.WellFormed ∧ right.WellFormed
  | var .. => True
  | hole => True

instance : DecidablePred WellFormed
  | constant v => inferInstanceAs (Decidable v.WellFormed)
  | poly p => inferInstanceAs (Decidable p.WellFormed)
  | unary _ operand => instDecidablePredWellFormed operand
  | binary _ left right =>
    haveI := instDecidablePredWellFormed left
    haveI := instDecidablePredWellFormed right
    inferInstanceAs (Decidable (left.WellFormed ∧ right.WellFormed))
  | var .. => isTrue trivial
  | hole => isTrue trivial

/-- Trees of one shape with equal leaves. -/
inductive Agrees : Expr → Expr → Prop
  | constant {v w : Value} (h : (v == w) = true) : Agrees (constant v) (constant w)
  | var (name : String) (kind : Kind) : Agrees (var name kind) (var name kind)
  | poly {p q : Poly} (h : (p == q) = true) : Agrees (poly p) (poly q)
  | hole : Agrees hole hole
  | unary (op : UnaryOp) {x y : Expr} (h : Agrees x y) : Agrees (unary op x) (unary op y)
  | binary (op : BinaryOp) {a b c d : Expr} (h : Agrees a c) (h' : Agrees b d) :
      Agrees (binary op a b) (binary op c d)

theorem agrees_of_beq {a b : Expr} (h : (a == b) = true) : Agrees a b := by
  change sameTree false a b = true at h
  fun_induction sameTree false a b with
  | case1 v w =>
    rw [Bool.false_and, Bool.false_and, Bool.false_and, Bool.or_false] at h
    exact .constant h
  | case2 a j b k =>
    rw [Bool.and_eq_true, beq_iff_eq, beq_iff_eq] at h
    obtain ⟨rfl, rfl⟩ := h
    exact .var a j
  | case3 p q => exact .poly h
  | case4 => exact .hole
  | case5 f x g y ih =>
    rw [Bool.and_eq_true, beq_iff_eq] at h
    obtain ⟨rfl, h⟩ := h
    exact .unary f (ih h)
  | case6 f a b g c d iha ihb =>
    rw [Bool.and_eq_true, Bool.and_eq_true, beq_iff_eq] at h
    obtain ⟨⟨rfl, ha⟩, hb⟩ := h
    exact .binary f (iha ha) (ihb hb)
  | case7 => cases h

theorem Agrees.fingerprints_eq {a b : Expr} (h : Agrees a b) (ha : a.WellFormed) (hb : b.WellFormed) :
    a.descriptor = b.descriptor ∧ a.leafFingerprint = b.leafFingerprint := by
  induction h with
  | constant h =>
    exact ⟨congrArg Descriptor.constant (Value.kind_eq_of_beq h), Value.fingerprint_congr ha hb h⟩
  | var name kind => exact ⟨rfl, rfl⟩
  | poly h =>
    exact ⟨congrArg Descriptor.poly (Poly.beq_iff.1 h).1, Poly.fingerprint_congr ha hb h⟩
  | hole => exact ⟨rfl, rfl⟩
  | unary op _ ih =>
    obtain ⟨hshape, hitems⟩ := ih ha hb
    exact ⟨by simp only [descriptor, hshape], hitems⟩
  | binary op _ _ ih ih' =>
    obtain ⟨hshape, hitems⟩ := ih ha.1 hb.1
    obtain ⟨hshape', hitems'⟩ := ih' ha.2 hb.2
    exact ⟨by simp only [descriptor, hshape, hshape'], by
      rw [leafFingerprint, leafFingerprint, hitems, hitems']⟩

/-- Equal expressions have equal fingerprints. -/
theorem fingerprint_eq_of_beq {a b : Expr} (ha : a.WellFormed) (hb : b.WellFormed)
    (h : (a == b) = true) : a.fingerprint = b.fingerprint := by
  obtain ⟨hshape, hitems⟩ := (agrees_of_beq h).fingerprints_eq ha hb
  rw [fingerprint, fingerprint, hshape, hitems]

/-- The expression `-3/4 + |-3/2 * x^2 + 1/2 * x^-1|`, with all its fractions in other terms. -/
theorem fingerprint_eq_of_unreduced_terms :
    let a := binary .sum (constant (.fraction (.finite true 6 8)))
      (unary .abs (poly (.fraction ⟨[(-1, .finite false 2 4), (2, .finite true 9 6)]⟩)))
    let b := binary .sum (constant (.fraction (.finite true 3 4)))
      (unary .abs (poly (.fraction ⟨[(-1, .finite false 1 2), (2, .finite true 6 4)]⟩)))
    a.WellFormed ∧ b.WellFormed ∧ (a == b) = true ∧ a.fingerprint = b.fingerprint := by
  intro a b
  have ha : a.WellFormed := by decide
  have hb : b.WellFormed := by decide
  have h : (a == b) = true := by decide
  exact ⟨ha, hb, h, fingerprint_eq_of_beq ha hb h⟩

end Expr

end Formula
