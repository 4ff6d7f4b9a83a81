import Formula.Proofs.Divisors
import Mathlib.Data.Nat.Factorization.Basic
import Mathlib.Logic.Relation

/-!
# The search for prime factors

A number has one factorization only (`IsFactorization.unique`), and the search for it comes to an end.
The recursion of `primeFactors` is kept finite by the tests of `divideOut` and `oddFactors`, which turn
away candidates below two and the number zero. The search here goes on step by step without these tests,
so that it would divide zero forever; but none of the numbers it meets is zero, and after finitely many
steps it has found the prime factors (`reaches_primeFactors`).
-/

namespace Formula

variable {n p e d i count : ℕ} {fs gs found : List (ℕ × ℕ)}

/-! ## Uniqueness -/

theorem exists_mem_of_prime_dvd (hfs : ∀ f ∈ fs, f.1.Prime) (hp : p.Prime)
    (hdvd : p ∣ (fs.map fun f => f.1 ^ f.2).prod) : ∃ e, (p, e) ∈ fs := by
  obtain ⟨k, hk, hdvd⟩ := (Nat.Prime.prime hp).dvd_prod_iff.1 hdvd
  obtain ⟨f, hf, rfl⟩ := List.mem_map.1 hk
  obtain rfl := (Nat.prime_dvd_prime_iff_eq hp (hfs f hf)).1 (hp.dvd_of_dvd_pow hdvd)
  exact ⟨f.2, hf⟩

theorem prod_pow_ne_zero (hfs : ∀ f ∈ fs, f.1.Prime) : (fs.map fun f => f.1 ^ f.2).prod ≠ 0 := by
  refine List.prod_ne_zero fun hzero => ?_
  obtain ⟨f, hf, hpow⟩ := List.mem_map.1 hzero
  exact pow_ne_zero f.2 (hfs f hf).ne_zero hpow

/-- Each prime is listed with the exponent that it has in the product. -/
theorem factorization_prod_pow (hprime : ∀ f ∈ fs, f.1.Prime)
    (hfs : fs.Pairwise fun f g => f.1 < g.1) (hmem : (p, e) ∈ fs) :
    Nat.factorization (fs.map fun f => f.1 ^ f.2).prod p = e := by
  induction fs with
  | nil => cases hmem
  | cons f fs ih =>
    rw [List.forall_mem_cons] at hprime
    rw [List.pairwise_cons] at hfs
    rw [List.map_cons, List.prod_cons, Nat.factorization_mul (pow_ne_zero _ hprime.1.ne_zero)
      (prod_pow_ne_zero hprime.2), hprime.1.factorization_pow, Finsupp.add_apply]
    obtain rfl | hmem := List.mem_cons.1 hmem
    · have hrest : ¬ p ∣ (fs.map fun f => f.1 ^ f.2).prod := fun hdvd => by
        obtain ⟨e', hmem⟩ := exists_mem_of_prime_dvd hprime.2 hprime.1 hdvd
        exact (hfs.1 _ hmem).false
      rw [Finsupp.single_eq_same, Nat.factorization_eq_zero_of_not_dvd hrest, add_zero]
    · rw [Finsupp.single_eq_of_ne (hfs.1 _ hmem).ne', zero_add, ih hprime.2 hfs.2 hmem]

namespace IsFactorization

theorem ne_zero (h : IsFactorization fs n) : n ≠ 0 :=
  h.prod ▸ prod_pow_ne_zero h.prime

/-- The members of a factorization are known from the number. -/
theorem mem_iff (h : IsFactorization fs n) :
    (p, e) ∈ fs ↔ p.Prime ∧ 0 < e ∧ n.factorization p = e := by
  constructor
  · intro hmem
    refine ⟨h.prime _ hmem, h.pos _ hmem, ?_⟩
    rw [← h.prod]
    exact factorization_prod_pow h.prime h.ascending hmem
  · rintro ⟨hp, he, rfl⟩
    have hdvd := Nat.dvd_of_factorization_pos he.ne'
    rw [← h.prod] at hdvd
    obtain ⟨e', hmem⟩ := exists_mem_of_prime_dvd h.prime hp hdvd
    have hexponent := factorization_prod_pow h.prime h.ascending hmem
    rw [h.prod] at hexponent
    rwa [hexponent]

theorem nodup (h : IsFactorization fs n) : fs.Nodup :=
  h.ascending.imp fun hlt heq => hlt.ne (congrArg Prod.fst heq)

theorem unique (h : IsFactorization fs n) (h' : IsFactorization gs n) : fs = gs := by
  have hperm : fs.Perm gs := (List.perm_ext_iff_of_nodup h.nodup h'.nodup).2 fun f =>
    h.mem_iff.trans h'.mem_iff.symm
  exact hperm.eq_of_pairwise (fun f g _ _ hlt hgt => absurd hgt hlt.asymm) h.ascending h'.ascending

end IsFactorization

/-! ## The steps of the search -/

/-- How far the search is. -/
inductive Search where
  /-- `d` is divided out of `n`, and has been divided out `count` times. -/
  | dividing (d n count : ℕ) (found : List (ℕ × ℕ))
  /-- The candidate `i` is due, and `n` is left of the number. -/
  | trying (i n : ℕ) (found : List (ℕ × ℕ))
  | finished (factors : List (ℕ × ℕ))

namespace Search

/-- The search for the factors of `n` begins with the prime two. Zero and one have no factors. -/
def start (n : ℕ) : Search :=
  if n ≤ 1 then finished [] else dividing 2 n 0 []

/-- One step of the search, if it is not finished. -/
def next? : Search → Option Search
  | dividing d n count found =>
    if n % d = 0 then some (dividing d (n / d) (count + 1) found)
    else some (trying (if d = 2 then 3 else d + 2) n (consFactor d count found))
  | trying i n found =>
    if i * i ≤ n then some (dividing i n 0 found)
    else some (finished (if n = 1 then found else (n, 1) :: found).reverse)
  | finished _ => none

/-- Finitely many steps lead from one search to another. -/
def Reaches : Search → Search → Prop :=
  Relation.ReflTransGen fun s t => s.next? = some t

/-- Dividing ends, and leaves what `divideOut` leaves. -/
theorem reaches_divideOut (hd : 1 < d) (hn : 0 < n) :
    (dividing d n count found).Reaches
      (trying (if d = 2 then 3 else d + 2) (divideOut d n count).2
        (consFactor d (divideOut d n count).1 found)) := by
  fun_induction divideOut d n count with
  | case1 n count h ih =>
    have hpos : 0 < n / d := Nat.div_pos (Nat.le_of_dvd hn (Nat.dvd_of_mod_eq_zero h.2.2)) (by omega)
    exact .head (if_pos h.2.2) (ih hpos)
  | case2 n count h =>
    exact .single (if_neg fun hmod => h ⟨hd, hn, hmod⟩)

/-- From an odd candidate on the search ends, and finds what `oddFactors` finds. -/
theorem reaches_oddFactors (hi : 3 ≤ i) (hn : 0 < n) :
    (trying i n found).Reaches (finished (oddFactors i n found).reverse) := by
  fun_induction oddFactors i n found with
  | case1 i n found hloop ih =>
    have hdivide : (dividing i n 0 found).Reaches _ := reaches_divideOut (by omega) hn
    rw [if_neg (by omega)] at hdivide
    exact .head (if_pos hloop.2) (hdivide.trans (ih (by omega) (divideOut_pos hn)))
  | case2 i found hloop =>
    rw [not_and] at hloop
    exact .single (if_neg (hloop (by omega)))
  | case3 i n found hloop hone =>
    rw [not_and] at hloop
    refine .single ((if_neg (hloop (by omega))).trans ?_)
    rw [if_neg hone]

theorem reaches_primeFactors (n : ℕ) : (start n).Reaches (finished (primeFactors n)) := by
  unfold start primeFactors
  split_ifs with hone
  · exact .refl
  · exact (reaches_divideOut (by omega) (by omega)).trans
      (reaches_oddFactors le_rfl (divideOut_pos (by omega)))

end Search

/-- The search for the prime factors of a number ends with the list of its primes in ascending order,
each with an exponent that is not zero, whose powers have the number for their product. There is no
other such list, and none at all for zero, where the list that is returned is empty. -/
theorem search_ends_with_the_factorization (n : ℕ) :
    (Search.start n).Reaches (.finished (primeFactors n)) ∧ primeFactors 0 = [] ∧
      ∀ fs, IsFactorization fs n ↔ 0 < n ∧ fs = primeFactors n := by
  refine ⟨Search.reaches_primeFactors n, rfl, fun fs => ⟨fun h => ?_, ?_⟩⟩
  · have hn : 0 < n := Nat.pos_of_ne_zero h.ne_zero
    exact ⟨hn, h.unique (isFactorization_primeFactors hn)⟩
  · rintro ⟨hn, rfl⟩
    exact isFactorization_primeFactors hn

end Formula
