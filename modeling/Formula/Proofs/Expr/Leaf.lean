import Formula.Poly
import Formula.Proofs.Binary.Floating
import Formula.Proofs.Fraction.Canonical
import Mathlib.Data.List.Forall2

/-!
# Equality of leaves

The leaves of an expression are numbers and polynomials. Equality of leaves is equality of their kinds,
of the powers of their terms and of the numbers in the same places, and what holds of the equality of
numbers holds of that of leaves: it is symmetric, transitive where fractions are well formed, and
reflexive but for NaN.
-/

namespace Formula

open List (Forall₂)

/-! ## Lists compared in places -/

section Lists

variable {α β : Type} {R : α → β → Prop} {S : α → α → Prop} {as bs cs : List α}

theorem forall₂_append_iff {us vs : List β} (h : as.length = us.length) :
    Forall₂ R (as ++ bs) (us ++ vs) ↔ Forall₂ R as us ∧ Forall₂ R bs vs := by
  constructor
  · intro hall
    have hleft := List.forall₂_take_append _ _ _ hall
    have hright := List.forall₂_drop_append _ _ _ hall
    rw [List.take_left' h] at hleft
    rw [List.drop_left' h] at hright
    exact ⟨hleft, hright⟩
  · rintro ⟨hleft, hright⟩
    exact List.rel_append hleft hright

theorem forall₂_symm (hS : ∀ {a b}, S a b → S b a) (h : Forall₂ S as bs) : Forall₂ S bs as :=
  (h.imp fun _ _ => hS).flip

theorem forall₂_trans (hS : ∀ a ∈ as, ∀ b ∈ bs, ∀ c ∈ cs, S a b → S b c → S a c)
    (h : Forall₂ S as bs) (h' : Forall₂ S bs cs) : Forall₂ S as cs := by
  induction h generalizing cs with
  | nil => exact h'
  | cons hab _ ih =>
    cases h' with
    | cons hbc h' =>
      simp only [List.forall_mem_cons] at hS
      exact .cons (hS.1.1.1 hab hbc) (ih (fun a ha b hb => ((hS.2 a ha).2 b hb).2) h')

end Lists

/-! ## Numbers -/

/-- Equality of machine numbers: NaN is equal to nothing, and the two zeros are equal to each other. -/
def EqualUpToZero {α : Type} (nan zero negZero x y : α) : Prop :=
  x ≠ nan ∧ y ≠ nan ∧ (x = y ∨ x = zero ∧ y = negZero ∨ x = negZero ∧ y = zero)

namespace EqualUpToZero

variable {α : Type} {nan zero negZero x y z : α}

theorem symm (h : EqualUpToZero nan zero negZero x y) : EqualUpToZero nan zero negZero y x := by
  obtain ⟨hx, hy, h⟩ := h
  refine ⟨hy, hx, ?_⟩
  rcases h with rfl | h | h
  · exact .inl rfl
  · exact .inr (.inr h.symm)
  · exact .inr (.inl h.symm)

theorem trans (h : EqualUpToZero nan zero negZero x y) (h' : EqualUpToZero nan zero negZero y z) :
    EqualUpToZero nan zero negZero x z := by
  obtain ⟨hx, -, hxy⟩ := h
  obtain ⟨-, hz, hyz⟩ := h'
  refine ⟨hx, hz, ?_⟩
  rcases hxy with rfl | ⟨rfl, rfl⟩ | ⟨rfl, rfl⟩
  · exact hyz
  · rcases hyz with rfl | ⟨-, rfl⟩ | ⟨-, rfl⟩
    · exact .inr (.inl ⟨rfl, rfl⟩)
    · exact .inr (.inl ⟨rfl, rfl⟩)
    · exact .inl rfl
  · rcases hyz with rfl | ⟨-, rfl⟩ | ⟨-, rfl⟩
    · exact .inr (.inr ⟨rfl, rfl⟩)
    · exact .inl rfl
    · exact .inr (.inr ⟨rfl, rfl⟩)

/-- Adding zero to equal machine numbers gives one and the same number. -/
theorem add_zero_congr [Add α] (hzero : zero + zero = negZero + zero)
    (h : EqualUpToZero nan zero negZero x y) : x + zero = y + zero := by
  obtain ⟨-, -, rfl | ⟨rfl, rfl⟩ | ⟨rfl, rfl⟩⟩ := h
  · rfl
  · exact hzero
  · exact hzero.symm

end EqualUpToZero

namespace Fraction

variable {f g h : Fraction}

theorem beq_self_iff : (f == f) = true ↔ f.isNaN = false := by
  cases f with
  | finite a n d =>
    show (a == a && n * d == n * d) = true ↔ _
    simp [isNaN]
  | infinite a =>
    show (a == a) = true ↔ _
    simp [isNaN]
  | nan => exact iff_of_false Bool.false_ne_true Bool.noConfusion

/-- Equality is symmetric also for fractions that are not well formed. -/
theorem beq_symm (h : (f == g) = true) : (g == f) = true := by
  cases f with
  | finite a n d =>
    cases g with
    | finite b m e =>
      change (a == b && n * e == m * d) = true at h
      show (b == a && m * d == n * e) = true
      rwa [BEq.comm, @BEq.comm _ _ _ (m * d)]
    | infinite => cases h
    | nan => cases h
  | infinite a =>
    cases g with
    | finite => cases h
    | infinite b =>
      show (b == a) = true
      rwa [BEq.comm]
    | nan => cases h
  | nan => cases h

theorem beq_trans (hf : f.WellFormed) (hg : g.WellFormed) (hh : h.WellFormed)
    (hfg : (f == g) = true) (hgh : (g == h) = true) : (f == h) = true := by
  rw [beq_iff hf hg] at hfg
  rw [beq_iff hg hh] at hgh
  exact (beq_iff hf hh).2 ⟨hfg.1.trans hgh.1, hfg.2⟩

end Fraction

namespace Value

/-- A fraction is well formed. A machine number always is. -/
def WellFormed : Value → Prop
  | fraction f => f.WellFormed
  | _ => True

instance : DecidablePred WellFormed
  | fraction f => inferInstanceAs (Decidable f.WellFormed)
  | double _ => isTrue trivial
  | single _ => isTrue trivial

variable {u v w : Value}

/-- Equal values are equal numbers of one kind. -/
inductive Equal : Value → Value → Prop
  | double {x y : Float} (h : EqualUpToZero Float.nan 0 (-0) x y) : Equal (double x) (double y)
  | single {x y : Float32} (h : EqualUpToZero Float32.nan 0 (-0) x y) : Equal (single x) (single y)
  | fraction {f g : Fraction} (h : (f == g) = true) : Equal (fraction f) (fraction g)

theorem beq_iff_equal : (v == w) = true ↔ Equal v w := by
  constructor
  · intro h
    cases v with
    | double x =>
      cases w with
      | double y => exact .double (Float.beq_iff_ne_nan_and_eq.1 h)
      | single => cases h
      | fraction => cases h
    | single x =>
      cases w with
      | double => cases h
      | single y => exact .single (Float32.beq_iff_ne_nan_and_eq.1 h)
      | fraction => cases h
    | fraction f =>
      cases w with
      | double => cases h
      | single => cases h
      | fraction g => exact .fraction h
  · intro h
    cases h with
    | double h => exact Float.beq_iff_ne_nan_and_eq.2 h
    | single h => exact Float32.beq_iff_ne_nan_and_eq.2 h
    | fraction h => exact h

theorem kind_eq_of_beq (h : (v == w) = true) : v.kind = w.kind := by
  cases beq_iff_equal.1 h <;> rfl

theorem beq_self_iff : (v == v) = true ↔ v.isNaN = false := by
  cases v with
  | double x =>
    show (x == x) = true ↔ x.isNaN = false
    rw [Float.beq_self_iff, Float.isNaN_eq_decide_eq_nan, decide_eq_false_iff_not]
  | single x =>
    show (x == x) = true ↔ x.isNaN = false
    rw [Float32.beq_self_iff, Float32.isNaN_eq_decide_eq_nan, decide_eq_false_iff_not]
  | fraction f => exact Fraction.beq_self_iff

theorem beq_symm (h : (v == w) = true) : (w == v) = true := by
  rw [beq_iff_equal] at h ⊢
  cases h with
  | double h => exact .double h.symm
  | single h => exact .single h.symm
  | fraction h => exact .fraction (Fraction.beq_symm h)

theorem beq_trans (hu : u.WellFormed) (hv : v.WellFormed) (hw : w.WellFormed)
    (h : (u == v) = true) (h' : (v == w) = true) : (u == w) = true := by
  rw [beq_iff_equal] at h h' ⊢
  cases h with
  | double h =>
    cases h' with
    | double h' => exact .double (h.trans h')
  | single h =>
    cases h' with
    | single h' => exact .single (h.trans h')
  | fraction h =>
    cases h' with
    | fraction h' => exact .fraction (Fraction.beq_trans hu hv hw h h')

end Value

/-! ## Polynomials -/

/-- Equal polynomials have equal powers and coefficients in the same places. -/
theorem Laurent.beq_iff_forall₂ {α : Type} [Scalar α] {p q : Laurent α} :
    (p == q) = true ↔
      List.Forall₂ (fun t u => t.1 = u.1 ∧ (t.2 == u.2) = true) p.terms q.terms := by
  change p.beq q = true ↔ _
  rw [beq, Bool.and_eq_true, beq_iff_eq, List.all_eq_true, List.forall₂_iff_zip]
  refine and_congr_right fun _ => ⟨fun h t u htu => ?_, fun h t ht => ?_⟩
  · have hterm := h (t, u) htu
    rwa [Bool.and_eq_true, beq_iff_eq] at hterm
  · rw [Bool.and_eq_true, beq_iff_eq]
    exact h ht

namespace Poly

/-- All coefficients are well formed. -/
def WellFormed (p : Poly) : Prop :=
  p.query fun p => ∀ t ∈ p.terms, (Scalar.toValue t.2).WellFormed

instance : DecidablePred WellFormed
  | fraction p => inferInstanceAs (Decidable (∀ t ∈ p.terms, (Value.fraction t.2).WellFormed))
  | double p => inferInstanceAs (Decidable (∀ t ∈ p.terms, (Value.double t.2).WellFormed))
  | single p => inferInstanceAs (Decidable (∀ t ∈ p.terms, (Value.single t.2).WellFormed))

variable {p q r : Poly}

/-- Powers and coefficients, by ascending power. -/
def terms (p : Poly) : List (ℤ × Value) :=
  p.query fun p => p.terms.map fun t => (t.1, Scalar.toValue t.2)

/-- Two terms with equal powers and equal coefficients. -/
def TermsAgree (t u : ℤ × Value) : Prop :=
  t.1 = u.1 ∧ (t.2 == u.2) = true

/-- Polynomials are equal if they are of one kind and their terms agree in their places. -/
theorem beq_iff : (p == q) = true ↔ p.kind = q.kind ∧ Forall₂ TermsAgree p.terms q.terms := by
  have hterms {α : Type} [Scalar α] {p q : Laurent α}
      (hbeq : ∀ c d : α, (c == d) = (Scalar.toValue c == Scalar.toValue d)) :
      (p == q) = true ↔ Forall₂ TermsAgree (p.terms.map fun t => (t.1, Scalar.toValue t.2))
        (q.terms.map fun t => (t.1, Scalar.toValue t.2)) := by
    rw [List.forall₂_map_left_iff, List.forall₂_map_right_iff, Laurent.beq_iff_forall₂]
    simp only [TermsAgree, hbeq]
  cases p with
  | double p =>
    cases q with
    | double q => exact (hterms fun _ _ => rfl).trans (and_iff_right rfl).symm
    | single => exact iff_of_false nofun nofun
    | fraction => exact iff_of_false nofun nofun
  | single p =>
    cases q with
    | double => exact iff_of_false nofun nofun
    | single q => exact (hterms fun _ _ => rfl).trans (and_iff_right rfl).symm
    | fraction => exact iff_of_false nofun nofun
  | fraction p =>
    cases q with
    | double => exact iff_of_false nofun nofun
    | single => exact iff_of_false nofun nofun
    | fraction q => exact (hterms fun _ _ => rfl).trans (and_iff_right rfl).symm

theorem wellFormed_iff : p.WellFormed ↔ ∀ t ∈ p.terms, t.2.WellFormed := by
  cases p <;>
  · rw [terms, query, List.forall_mem_map]
    rfl

theorem beq_self_iff : (p == p) = true ↔ ∀ t ∈ p.terms, t.2.isNaN = false := by
  rw [beq_iff, and_iff_right rfl, List.forall₂_same]
  simp only [TermsAgree, true_and, Value.beq_self_iff]

theorem beq_symm (h : (p == q) = true) : (q == p) = true := by
  rw [beq_iff] at h ⊢
  exact ⟨h.1.symm, forall₂_symm (fun ht => ⟨ht.1.symm, Value.beq_symm ht.2⟩) h.2⟩

theorem beq_trans (hp : p.WellFormed) (hq : q.WellFormed) (hr : r.WellFormed)
    (h : (p == q) = true) (h' : (q == r) = true) : (p == r) = true := by
  rw [wellFormed_iff] at hp hq hr
  rw [beq_iff] at h h' ⊢
  refine ⟨h.1.trans h'.1, forall₂_trans ?_ h.2 h'.2⟩
  intro t ht u hu v hv htu huv
  exact ⟨htu.1.trans huv.1, Value.beq_trans (hp t ht) (hq u hu) (hr v hv) htu.2 huv.2⟩

end Poly

/-! ## Leaves -/

/-- A number or a polynomial that an expression is made of. -/
inductive Leaf where
  | constant (value : Value)
  | poly (p : Poly)

namespace Leaf

variable {l m n : Leaf} {nanEqual : Bool}

/-- Equality of numbers and of polynomials. -/
def beq : Leaf → Leaf → Bool
  | constant v, constant w => v == w
  | poly p, poly q => p == q
  | _, _ => false

instance : BEq Leaf := ⟨beq⟩

/-- Whether both are NaN constants of one kind. -/
def bothNaN : Leaf → Leaf → Bool
  | constant v, constant w => v.kind == w.kind && v.isNaN && w.isNaN
  | _, _ => false

/-- Equal or, where `nanEqual`, both NaN constants of one kind. -/
def Matches (nanEqual : Bool) (l m : Leaf) : Prop :=
  (l == m || (nanEqual && bothNaN l m)) = true

theorem matches_false_iff : Matches false l m ↔ (l == m) = true := by
  rw [Matches, Bool.false_and, Bool.or_false]

theorem matches_iff : Matches true l m ↔ (l == m) = true ∨ bothNaN l m = true := by
  rw [Matches, Bool.true_and, Bool.or_eq_true]

/-- The fractions are well formed. -/
def WellFormed : Leaf → Prop
  | constant v => v.WellFormed
  | poly p => p.WellFormed

theorem matches_constant_iff {v w : Value} : Matches nanEqual (constant v) (constant w) ↔
    (v == w || (nanEqual && v.kind == w.kind && v.isNaN && w.isNaN)) = true := by
  rw [Bool.and_assoc, Bool.and_assoc, ← Bool.and_assoc (v.kind == w.kind)]
  rfl

theorem matches_poly_iff {p q : Poly} : Matches nanEqual (poly p) (poly q) ↔ (p == q) = true := by
  show (p == q || (nanEqual && false)) = true ↔ _
  rw [Bool.and_false, Bool.or_false]

theorem Matches.kind_eq {v w : Value} (h : Matches nanEqual (constant v) (constant w)) :
    v.kind = w.kind := by
  rw [matches_constant_iff, Bool.or_eq_true] at h
  rcases h with h | h
  · exact Value.kind_eq_of_beq h
  · simp only [Bool.and_eq_true, beq_iff_eq] at h
    exact h.1.1.2

/-- No coefficient is NaN. Constants may be. -/
def Known : Leaf → Prop
  | constant _ => True
  | poly p => ∀ t ∈ p.terms, t.2.isNaN = false

instance : DecidablePred Known
  | constant _ => isTrue trivial
  | poly p => inferInstanceAs (Decidable (∀ t ∈ p.terms, t.2.isNaN = false))

theorem matches_self_iff (l : Leaf) : Matches true l l ↔ l.Known := by
  rw [matches_iff]
  cases l with
  | constant v =>
    refine iff_of_true ?_ trivial
    cases hv : v.isNaN with
    | false => exact .inl (Value.beq_self_iff.2 hv)
    | true =>
      refine .inr ?_
      rw [bothNaN, hv, beq_self_eq_true]
      rfl
  | poly p => exact (or_iff_left Bool.false_ne_true).trans Poly.beq_self_iff

theorem Matches.symm (h : Matches true l m) : Matches true m l := by
  rw [matches_iff] at h ⊢
  cases l with
  | constant v =>
    cases m with
    | constant w =>
      refine h.imp Value.beq_symm fun h => ?_
      rw [bothNaN, Bool.and_eq_true, Bool.and_eq_true, beq_iff_eq] at h ⊢
      exact ⟨⟨h.1.1.symm, h.2⟩, h.1.2⟩
    | poly => simp [bothNaN, BEq.beq, beq] at h
  | poly p =>
    cases m with
    | constant => simp [bothNaN, BEq.beq, beq] at h
    | poly q => exact h.imp Poly.beq_symm id

theorem Matches.trans (hl : l.WellFormed) (hm : m.WellFormed) (hn : n.WellFormed)
    (h : Matches true l m) (h' : Matches true m n) : Matches true l n := by
  rw [matches_iff] at h h' ⊢
  cases l with
  | constant u =>
    cases m with
    | constant v =>
      cases n with
      | constant w =>
        simp only [bothNaN, Bool.and_eq_true, beq_iff_eq] at h h' ⊢
        rcases h with h | ⟨⟨hk, hu⟩, hv⟩
        · rcases h' with h' | ⟨⟨-, hv⟩, -⟩
          · exact .inl (Value.beq_trans hl hm hn h h')
          · -- nothing is equal to NaN
            have hself := Value.beq_trans hm hl hm (Value.beq_symm h) h
            rw [Value.beq_self_iff.1 hself] at hv
            cases hv
        · rcases h' with h' | ⟨⟨hk', -⟩, hw⟩
          · have hself := Value.beq_trans hm hn hm h' (Value.beq_symm h')
            rw [Value.beq_self_iff.1 hself] at hv
            cases hv
          · exact .inr ⟨⟨hk.trans hk', hu⟩, hw⟩
      | poly => simp [bothNaN, BEq.beq, beq] at h'
    | poly => simp [bothNaN, BEq.beq, beq] at h
  | poly p =>
    cases m with
    | constant => simp [bothNaN, BEq.beq, beq] at h
    | poly q =>
      cases n with
      | constant => simp [bothNaN, BEq.beq, beq] at h'
      | poly r =>
        refine .inl (Poly.beq_trans hl hm hn ?_ ?_)
        · exact h.resolve_right Bool.false_ne_true
        · exact h'.resolve_right Bool.false_ne_true

end Leaf

end Formula
