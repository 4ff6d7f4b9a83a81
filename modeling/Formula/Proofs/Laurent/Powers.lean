import Formula.Poly
import Mathlib.Data.Int.Notation
import Mathlib.Data.Nat.Notation
import Mathlib.Tactic.SplitIfs

/-!
# Powers of 64 bits

The powers in a product are sums of powers, and the powers to an exponent `n` are up to `n` times those
of the base. So if all powers are `Within` a bound, the powers of the results are within a bound of their
own, and nothing overflows as long as this bound stays below `2 ^ 63` (`Within.multiplied?`,
`Within.reciprocal?`, `Within.power?`). Which coefficients are zero does not matter.
-/

namespace Formula

open Fraction (wordBound isWord)

theorem Fraction.isWord_iff {n : ℤ} : isWord n = true ↔ -(wordBound : ℤ) ≤ n ∧ n < wordBound :=
  decide_eq_true_iff

theorem Fraction.isWord_of_natAbs_lt {n : ℤ} (h : n.natAbs < wordBound) : isWord n = true := by
  rw [isWord_iff]
  omega

namespace Laurent

variable {α : Type} {p q : Laurent α} {ts : List (ℤ × α)} {i : ℤ} {d k n : ℕ}

/-! ## A bound on the powers -/

/-- All powers are at most `d` in magnitude. -/
def Within (d : ℕ) (p : Laurent α) : Prop :=
  ∀ t ∈ p.terms, t.1.natAbs ≤ d

theorem Within.mono (h : p.Within d) (hdk : d ≤ k) : p.Within k :=
  fun t ht => Nat.le_trans (h t ht) hdk

theorem productFits_iff :
    p.productFits q = true ↔ ∀ t ∈ p.terms, ∀ u ∈ q.terms, isWord (t.1 + u.1) = true := by
  simp only [productFits, List.all_eq_true]

theorem reciprocalFits_iff : p.reciprocalFits = true ↔ ∀ t ∈ p.terms, isWord (-t.1) = true := by
  simp only [reciprocalFits, List.all_eq_true]

theorem Within.productFits (hp : p.Within d) (hq : q.Within k) (hlt : d + k < wordBound) :
    p.productFits q = true := by
  rw [productFits_iff]
  intro t ht u hu
  have := hp t ht
  have := hq u hu
  apply Fraction.isWord_of_natAbs_lt
  omega

theorem Within.reciprocalFits (hp : p.Within d) (hlt : d < wordBound) :
    p.reciprocalFits = true := by
  rw [reciprocalFits_iff]
  intro t ht
  have := hp t ht
  apply Fraction.isWord_of_natAbs_lt
  omega

/-! ## Powers of the results -/

theorem power_of_mem_upsert {t : ℤ × α} {f : Option α → α} (h : t ∈ upsert i f ts) :
    t.1 = i ∨ ∃ u ∈ ts, t.1 = u.1 := by
  induction ts with
  | nil =>
    rw [upsert, List.mem_singleton] at h
    exact .inl (h ▸ rfl)
  | cons u ts ih =>
    rw [upsert] at h
    split_ifs at h with hlt heq
    · rcases List.mem_cons.1 h with rfl | h
      · exact .inl rfl
      · exact .inr ⟨t, h, rfl⟩
    · rcases List.mem_cons.1 h with rfl | h
      · exact .inl heq.symm
      · exact .inr ⟨t, List.mem_cons_of_mem u h, rfl⟩
    · rcases List.mem_cons.1 h with rfl | h
      · exact .inr ⟨_, List.mem_cons_self, rfl⟩
      · rcases ih h with hi | ⟨v, hv, htv⟩
        · exact .inl hi
        · exact .inr ⟨v, List.mem_cons_of_mem u hv, htv⟩

theorem within_upsert {f : Option α → α} (hts : Within d ⟨ts⟩) (hi : i.natAbs ≤ d) :
    Within d ⟨upsert i f ts⟩ := by
  intro t ht
  rcases power_of_mem_upsert ht with h | ⟨u, hu, h⟩
  · rwa [h]
  · rw [h]
    exact hts u hu

variable [Scalar α]

theorem within_dropZeros (hts : Within d ⟨ts⟩) : Within d ⟨dropZeros ts⟩ :=
  fun t ht => hts t (List.mem_filter.1 ht).1

theorem within_ofTerms (hts : Within d ⟨ts⟩) : (ofTerms ts).Within d := by
  apply within_dropZeros
  apply List.foldlRecOn (motive := fun acc : List (ℤ × α) => Within d ⟨acc⟩)
  · exact List.forall_mem_nil _
  · intro acc hacc t ht
    exact within_upsert hacc (hts t ht)

theorem within_one : (constant Scalar.one : Laurent α).Within 0 :=
  within_ofTerms (List.forall_mem_singleton.2 (Nat.le_refl 0))

theorem Within.added (hp : p.Within d) (hq : q.Within d) : (p.added q).Within d := by
  apply within_dropZeros
  apply List.foldlRecOn (motive := fun acc : List (ℤ × α) => Within d ⟨acc⟩)
  · exact hp
  · intro acc hacc t ht
    exact within_upsert hacc (hq t ht)

theorem Within.negated (hp : p.Within d) : p.negated.Within d := by
  intro t ht
  obtain ⟨u, hu, rfl⟩ := List.mem_map.1 ht
  exact hp u hu

theorem Within.multiplied (hp : p.Within d) (hq : q.Within k) : (p.multiplied q).Within (d + k) := by
  apply within_dropZeros
  apply List.foldlRecOn (motive := fun acc : List (ℤ × α) => Within (d + k) ⟨acc⟩)
  · exact List.forall_mem_nil _
  intro acc hacc t ht
  apply List.foldlRecOn (motive := fun acc : List (ℤ × α) => Within (d + k) ⟨acc⟩)
  · exact hacc
  · intro acc hacc u hu
    have := hp t ht
    have := hq u hu
    exact within_upsert hacc (by omega)

theorem Within.reciprocal (hp : p.Within d) : p.reciprocal.Within d := by
  apply within_ofTerms
  intro t ht
  obtain ⟨u, hu, rfl⟩ := List.mem_map.1 ht
  rw [Int.natAbs_neg]
  exact hp u hu

theorem Within.powNat (hp : p.Within d) (n : ℕ) : (p.powNat n).Within (n * d) := by
  induction n with
  | zero =>
    rw [Nat.zero_mul]
    exact within_one
  | succ n ih =>
    rw [Nat.succ_mul]
    exact ih.multiplied hp

theorem Within.power (hp : p.Within d) (n : ℤ) : (p.power n).Within (n.natAbs * d) := by
  unfold Laurent.power
  split_ifs
  · exact (hp.powNat n.natAbs).reciprocal
  · exact hp.powNat n.natAbs

/-! ## No overflow within the bound -/

theorem Within.multiplied? (hp : p.Within d) (hq : q.Within k) (hlt : d + k < wordBound) :
    p.multiplied? q = some (p.multiplied q) :=
  if_pos (hp.productFits hq hlt)

theorem Within.reciprocal? (hp : p.Within d) (hlt : d < wordBound) :
    p.reciprocal? = some p.reciprocal :=
  if_pos (hp.reciprocalFits hlt)

theorem Within.powNat? (hp : p.Within d) (hlt : n * d < wordBound) :
    p.powNat? n = some (p.powNat n) := by
  induction n with
  | zero => rfl
  | succ n ih =>
    rw [Nat.succ_mul] at hlt
    rw [Laurent.powNat?, ih (by omega)]
    exact (hp.powNat n).multiplied? hp hlt

/-- A power goes through the powers to smaller exponents, which are within the bound as well. -/
theorem Within.power? {n : ℤ} (hp : p.Within d) (hlt : n.natAbs * d < wordBound) :
    p.power? n = some (p.power n) := by
  rw [Laurent.power?, hp.powNat? hlt, Option.bind_some, Laurent.power]
  split_ifs
  · exact (hp.powNat n.natAbs).reciprocal? hlt
  · rfl

end Laurent

/-! ## Polynomials of any kind -/

namespace Poly

variable {p q r : Poly} {d k : ℕ}

/-- All powers are at most `d` in magnitude. -/
def Within (d : ℕ) : Poly → Prop
  | double p => p.Within d
  | single p => p.Within d
  | fraction p => p.Within d

theorem Within.mono (h : p.Within d) (hdk : d ≤ k) : p.Within k := by
  cases p <;> exact Laurent.Within.mono h hdk

theorem Within.negated (h : p.Within d) : p.negated.Within d := by
  cases p <;> exact Laurent.Within.negated h

theorem Within.power (h : p.Within d) (n : ℤ) : (p.power n).Within (n.natAbs * d) := by
  cases p <;> exact Laurent.Within.power h n

theorem Within.of_add? (h : p.add? q = some r) (hp : p.Within d) (hq : q.Within d) :
    r.Within d := by
  cases p <;> cases q <;> cases h <;> exact Laurent.Within.added hp hq

theorem Within.of_mul? (h : p.mul? q = some r) (hp : p.Within d) (hq : q.Within k) :
    r.Within (d + k) := by
  cases p <;> cases q <;> cases h <;> exact Laurent.Within.multiplied hp hq

theorem Within.productFits (hp : p.Within d) (hq : q.Within k) (hlt : d + k < wordBound) :
    p.productFits q = true := by
  cases p <;> cases q <;> first | exact Laurent.Within.productFits hp hq hlt | rfl

theorem Within.powerFits {n : ℤ} (hp : p.Within d) (hlt : n.natAbs * d < wordBound) :
    p.powerFits n = true := by
  cases p <;> exact Option.isSome_of_eq_some (Laurent.Within.power? hp hlt)

end Poly

end Formula
