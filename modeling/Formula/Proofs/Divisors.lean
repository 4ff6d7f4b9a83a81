import Formula.Divisors
import Mathlib.Data.Nat.Prime.Basic
import Mathlib.Algebra.BigOperators.Group.List.Basic
import Mathlib.Data.List.Nodup

/-!
# Prime factors and divisors

Trial division gives the primes of a number in ascending order, each with its exponent
(`isFactorization_primeFactors`). That a candidate is prime is never tested: what is left has no prime
factor below the candidate, so a candidate that divides it is its least prime factor, and what is left
in the end is prime or one. The list made of these primes has exactly the divisors for its members
(`mem_divisorList`). It is only sorted in the end, and needs no more to be strictly ascending: every
divisor is a product of prime powers in one way, so that none is made twice (`nodup_divisorList`).
-/

namespace Formula

variable {d n m i p e count : ℕ} {fs found : List (ℕ × ℕ)}

/-! ## Dividing out -/

theorem divideOut_mul (d n count : ℕ) :
    d ^ (divideOut d n count).1 * (divideOut d n count).2 = d ^ count * n := by
  fun_induction divideOut d n count with
  | case1 n count h ih =>
    have hdvd : d ∣ n := Nat.dvd_of_mod_eq_zero h.2.2
    rw [ih, pow_succ, mul_assoc, Nat.mul_div_cancel' hdvd]
  | case2 => rfl

theorem divideOut_pos (hn : 0 < n) : 0 < (divideOut d n count).2 := by
  fun_induction divideOut d n count with
  | case1 n count h ih =>
    exact ih (Nat.div_pos (Nat.le_of_dvd hn (Nat.dvd_of_mod_eq_zero h.2.2)) (by omega))
  | case2 => exact hn

theorem not_dvd_divideOut (hd : 1 < d) (hn : 0 < n) : ¬ d ∣ (divideOut d n count).2 := by
  fun_induction divideOut d n count with
  | case1 n count h ih =>
    exact ih (Nat.div_pos (Nat.le_of_dvd hn (Nat.dvd_of_mod_eq_zero h.2.2)) (by omega))
  | case2 n count h =>
    intro hdvd
    exact h ⟨hd, hn, Nat.mod_eq_zero_of_dvd hdvd⟩

theorem pow_mul_divideOut (d n : ℕ) : d ^ (divideOut d n 0).1 * (divideOut d n 0).2 = n := by
  rw [divideOut_mul, pow_zero, one_mul]

theorem divideOut_dvd (d n : ℕ) : (divideOut d n 0).2 ∣ n :=
  Dvd.intro_left _ (pow_mul_divideOut d n)

/-! ## Factorizations -/

/-- The primes of `n` in ascending order, each with an exponent that is not zero. -/
structure IsFactorization (fs : List (ℕ × ℕ)) (n : ℕ) : Prop where
  ascending : fs.Pairwise fun f g => f.1 < g.1
  prime : ∀ f ∈ fs, f.1.Prime
  pos : ∀ f ∈ fs, 0 < f.2
  prod : (fs.map fun f => f.1 ^ f.2).prod = n

theorem isFactorization_nil : IsFactorization [] 1 :=
  ⟨.nil, by simp, by simp, rfl⟩

theorem IsFactorization.concat (h : IsFactorization fs n) (hlt : ∀ f ∈ fs, f.1 < p)
    (hp : p.Prime) (he : 0 < e) : IsFactorization (fs ++ [(p, e)]) (n * p ^ e) := by
  refine ⟨List.pairwise_append.2 ⟨h.ascending, List.pairwise_singleton _ _, ?_⟩, ?_, ?_, ?_⟩
  · exact fun f hf => List.forall_mem_singleton.2 (hlt f hf)
  · exact List.forall_mem_append.2 ⟨h.prime, List.forall_mem_singleton.2 hp⟩
  · exact List.forall_mem_append.2 ⟨h.pos, List.forall_mem_singleton.2 he⟩
  · rw [List.map_append, List.prod_append, h.prod, List.map_singleton, List.prod_singleton]

/-- The factors are found by ascending primes and put in front, so that they are listed backwards. -/
theorem isFactorization_consFactor (h : IsFactorization found.reverse n)
    (hlt : ∀ f ∈ found, f.1 < p) (hp : 0 < count → p.Prime) :
    IsFactorization (consFactor p count found).reverse (n * p ^ count) := by
  unfold consFactor
  split_ifs with hcount
  · rw [List.reverse_cons]
    exact h.concat (fun f hf => hlt f (List.mem_reverse.1 hf)) (hp hcount) hcount
  · obtain rfl : count = 0 := by omega
    rwa [pow_zero, mul_one]

theorem fst_le_of_mem_consFactor (hlt : ∀ f ∈ found, f.1 < p) :
    ∀ f ∈ consFactor p count found, f.1 ≤ p := by
  unfold consFactor
  split_ifs
  · exact List.forall_mem_cons.2 ⟨le_rfl, fun f hf => (hlt f hf).le⟩
  · exact fun f hf => (hlt f hf).le

/-! ## Trial division -/

/-- A divisor is prime if no prime factor is less. -/
theorem prime_of_dvd (hi : 1 < i) (hmin : ∀ p, p.Prime → p ∣ n → i ≤ p) (hdvd : i ∣ n) :
    i.Prime := by
  have hfac : i.minFac.Prime := Nat.minFac_prime (by omega)
  have hle : i ≤ i.minFac := hmin _ hfac ((Nat.minFac_dvd i).trans hdvd)
  rwa [le_antisymm (Nat.minFac_le (by omega)) hle] at hfac

/-- What is left in the end is prime if it is not one. -/
theorem prime_of_lt_mul_self (hn : 1 < n) (hmin : ∀ p, p.Prime → p ∣ n → i ≤ p)
    (hlt : n < i * i) : n.Prime := by
  by_contra hprime
  have hsq := Nat.minFac_sq_le_self (by omega) hprime
  have hle : i ≤ n.minFac := hmin _ (Nat.minFac_prime (by omega)) (Nat.minFac_dvd n)
  have hmul := Nat.mul_le_mul hle hle
  rw [pow_two] at hsq
  omega

/-- Once an odd candidate is divided out of an odd number, the primes left begin two above it. -/
theorem add_two_le_of_prime_dvd (hi : i % 2 = 1) (hi3 : 3 ≤ i) (hn : 0 < n)
    (hmin : ∀ p, p.Prime → p ∣ n → i ≤ p) :
    ∀ p, p.Prime → p ∣ (divideOut i n 0).2 → i + 2 ≤ p := by
  intro p hp hdvd
  have hle : i ≤ p := hmin p hp (hdvd.trans (divideOut_dvd i n))
  have hne : p ≠ i := by
    rintro rfl
    exact not_dvd_divideOut (by omega) hn hdvd
  have hodd : p % 2 = 1 := hp.eq_two_or_odd.resolve_left (by omega)
  omega

theorem isFactorization_oddFactors (h : IsFactorization found.reverse m)
    (hlt : ∀ f ∈ found, f.1 < i) (hi : i % 2 = 1) (hi3 : 3 ≤ i) (hn : 0 < n)
    (hmin : ∀ p, p.Prime → p ∣ n → i ≤ p) :
    IsFactorization (oddFactors i n found).reverse (m * n) := by
  fun_induction oddFactors i n found generalizing m with
  | case1 i n found hloop ih =>
    have hprime (hcount : 0 < (divideOut i n 0).1) : i.Prime := by
      refine prime_of_dvd (by omega) hmin ?_
      exact (dvd_pow_self i hcount.ne').trans (Dvd.intro _ (pow_mul_divideOut i n))
    have hnext : ∀ f ∈ consFactor i (divideOut i n 0).1 found, f.1 < i + 2 := fun f hf =>
      (fst_le_of_mem_consFactor hlt f hf).trans_lt (by omega)
    have hrest := ih (isFactorization_consFactor h hlt hprime) hnext (by omega) (by omega)
      (divideOut_pos hn) (add_two_le_of_prime_dvd hi hi3 hn hmin)
    rwa [mul_assoc, pow_mul_divideOut] at hrest
  | case2 i found hloop => rwa [mul_one]
  | case3 i n found hloop hone =>
    have hprime : n.Prime := prime_of_lt_mul_self (i := i) (by omega) hmin (by
      rw [not_and] at hloop
      exact not_le.1 (hloop (by omega)))
    have hin : i ≤ n := hmin n hprime (dvd_refl n)
    rw [List.reverse_cons]
    have hconcat := h.concat (p := n) (fun f hf => ?_) hprime one_pos
    · rwa [pow_one] at hconcat
    · exact (hlt f (List.mem_reverse.1 hf)).trans_le hin

theorem isFactorization_primeFactors (hn : 0 < n) : IsFactorization (primeFactors n) n := by
  unfold primeFactors
  split_ifs with hone
  · obtain rfl : n = 1 := by omega
    exact isFactorization_nil
  have hnone : ∀ f ∈ ([] : List (ℕ × ℕ)), f.1 < 2 := by simp
  have htwo : IsFactorization (consFactor 2 (divideOut 2 n 0).1 []).reverse _ :=
    isFactorization_consFactor isFactorization_nil hnone fun _ => Nat.prime_two
  have h := isFactorization_oddFactors (i := 3) (n := (divideOut 2 n 0).2) htwo ?_ rfl le_rfl
    (divideOut_pos hn) ?_
  · rwa [one_mul, pow_mul_divideOut] at h
  · intro f hf
    have := fst_le_of_mem_consFactor hnone f hf
    omega
  · intro p hp hdvd
    have hne : p ≠ 2 := by
      rintro rfl
      exact not_dvd_divideOut (by omega) hn hdvd
    have := hp.two_le
    omega

/-! ## Divisors -/

theorem mem_extendDivisors {ds : List ℕ} (hds : ∀ k, k ∈ ds ↔ k ∣ n) (hp : p.Prime) (k : ℕ) :
    k ∈ extendDivisors ds p e ↔ k ∣ n * p ^ e := by
  have hmem : k ∈ extendDivisors ds p e ↔ ∃ a ∈ ds, ∃ j < e + 1, a * p ^ j = k := by
    simp [extendDivisors]
  rw [hmem, Nat.dvd_mul]
  constructor
  · rintro ⟨a, ha, j, hj, rfl⟩
    exact ⟨a, p ^ j, (hds a).1 ha, pow_dvd_pow p (by omega), rfl⟩
  · rintro ⟨a, b, ha, hb, rfl⟩
    obtain ⟨j, hj, rfl⟩ := (Nat.dvd_prime_pow hp).1 hb
    exact ⟨a, (hds a).2 ha, j, by omega, rfl⟩

/-- The divisors of the part of a number that the first factors make up are all listed. -/
theorem mem_foldl_extendDivisors {ds : List ℕ} (hds : ∀ k, k ∈ ds ↔ k ∣ n)
    (hfs : ∀ f ∈ fs, f.1.Prime) (k : ℕ) :
    k ∈ fs.foldl (fun acc f => extendDivisors acc f.1 f.2) ds ↔
      k ∣ n * (fs.map fun f => f.1 ^ f.2).prod := by
  induction fs generalizing n ds with
  | nil => simpa using hds k
  | cons f fs ih =>
    rw [List.forall_mem_cons] at hfs
    rw [List.foldl_cons, ih (mem_extendDivisors hds hfs.1) hfs.2, List.map_cons, List.prod_cons,
      mul_assoc]

theorem mem_one_iff_dvd (k : ℕ) : k ∈ [1] ↔ k ∣ 1 := by simp

theorem mem_divisorList (hn : n ≠ 0) (k : ℕ) : k ∈ divisorList n ↔ k ∣ n := by
  have hfact := isFactorization_primeFactors (Nat.pos_of_ne_zero hn)
  have hmem := mem_foldl_extendDivisors mem_one_iff_dvd hfact.prime k
  rw [divisorList, if_neg hn, List.mem_mergeSort, hmem, hfact.prod, one_mul]

/-! ### No duplicates -/

section Duplicates

variable {a b j k : ℕ} {ds : List ℕ}

theorem le_of_mul_pow_eq (hp : 0 < p) (ha : ¬ p ∣ a) (h : a * p ^ j = b * p ^ k) : k ≤ j := by
  by_contra hlt
  obtain ⟨t, rfl⟩ := Nat.exists_eq_add_of_lt (not_le.1 hlt)
  have hcancel : a = b * p ^ (t + 1) := by
    apply Nat.mul_right_cancel (Nat.pow_pos (n := j) hp)
    rw [h, mul_assoc, ← pow_add, add_comm j t, add_right_comm]
  exact ha (hcancel ▸ (dvd_pow_self p t.succ_ne_zero).mul_left b)

/-- The power of a prime can be told from a product if the other factor is free of the prime. -/
theorem eq_of_mul_pow_eq (hp : 0 < p) (ha : ¬ p ∣ a) (hb : ¬ p ∣ b) (h : a * p ^ j = b * p ^ k) :
    a = b ∧ j = k := by
  obtain rfl : j = k := le_antisymm (le_of_mul_pow_eq hp hb h.symm) (le_of_mul_pow_eq hp ha h)
  exact ⟨Nat.mul_right_cancel (Nat.pow_pos hp) h, rfl⟩

theorem nodup_extendDivisors (hds : ds.Nodup) (hp : p.Prime) (hfree : ∀ a ∈ ds, ¬ p ∣ a) :
    (extendDivisors ds p e).Nodup := by
  refine List.nodup_flatMap.2 ⟨fun a ha => ?_, ?_⟩
  · refine List.nodup_range.map fun j k h => ?_
    exact (eq_of_mul_pow_eq hp.pos (hfree a ha) (hfree a ha) h).2
  · refine hds.imp_of_mem fun ha hb hne x hx hx' => ?_
    obtain ⟨j, -, rfl⟩ := List.mem_map.1 hx
    obtain ⟨k, -, h⟩ := List.mem_map.1 hx'
    exact hne (eq_of_mul_pow_eq hp.pos (hfree _ ha) (hfree _ hb) h.symm).1

/-- Every prime is new when its powers are put in, so no divisor is made twice. -/
theorem nodup_foldl_extendDivisors (hmem : ∀ k, k ∈ ds ↔ k ∣ n) (hds : ds.Nodup)
    (hprime : ∀ f ∈ fs, f.1.Prime) (hnew : ∀ f ∈ fs, ¬ f.1 ∣ n)
    (hfs : fs.Pairwise fun f g => f.1 < g.1) :
    (fs.foldl (fun acc f => extendDivisors acc f.1 f.2) ds).Nodup := by
  induction fs generalizing n ds with
  | nil => exact hds
  | cons f fs ih =>
    rw [List.forall_mem_cons] at hprime hnew
    rw [List.pairwise_cons] at hfs
    have hfree : ∀ a ∈ ds, ¬ f.1 ∣ a := fun a ha hdvd => hnew.1 (hdvd.trans ((hmem a).1 ha))
    refine ih (mem_extendDivisors hmem hprime.1) (nodup_extendDivisors hds hprime.1 hfree) hprime.2
      (fun g hg hdvd => ?_) hfs.2
    obtain hdvd | hdvd := (hprime.2 g hg).dvd_mul.1 hdvd
    · exact hnew.2 g hg hdvd
    · have hdvd' := (hprime.2 g hg).dvd_of_dvd_pow hdvd
      exact (hfs.1 g hg).ne' ((Nat.prime_dvd_prime_iff_eq (hprime.2 g hg) hprime.1).1 hdvd')

end Duplicates

theorem nodup_divisorList (n : ℕ) : (divisorList n).Nodup := by
  unfold divisorList
  split_ifs with hn
  · exact List.nodup_nil
  have hfact := isFactorization_primeFactors (Nat.pos_of_ne_zero hn)
  have hnew : ∀ f ∈ primeFactors n, ¬ f.1 ∣ 1 := fun f hf => (hfact.prime f hf).not_dvd_one
  rw [(List.mergeSort_perm _ _).nodup_iff]
  exact nodup_foldl_extendDivisors mem_one_iff_dvd (List.nodup_singleton 1) hfact.prime hnew
    hfact.ascending

theorem pairwise_le_divisorList (n : ℕ) : (divisorList n).Pairwise (· ≤ ·) := by
  unfold divisorList
  split_ifs with hn
  · exact .nil
  · have htrans (a b c : ℕ) : decide (a ≤ b) = true → decide (b ≤ c) = true → decide (a ≤ c) = true := by
      simpa using le_trans
    have htotal (a b : ℕ) : (decide (a ≤ b) || decide (b ≤ a)) = true := by
      simpa using le_total a b
    exact (List.pairwise_mergeSort htrans htotal _).imp of_decide_eq_true

/-- The list of the divisors of `n` is strictly ascending, and its members are the divisors of `n`, each
of them once. Zero has an empty list, although everything divides it. -/
theorem divisorList_ascending_and_complete (n : ℕ) :
    (divisorList n).Pairwise (· < ·) ∧ (∀ d, d ∈ divisorList n ↔ n ≠ 0 ∧ d ∣ n) ∧
      divisorList 0 = [] := by
  refine ⟨?_, fun d => ?_, rfl⟩
  · exact ((pairwise_le_divisorList n).and (nodup_divisorList n)).imp fun h =>
      lt_of_le_of_ne h.1 h.2
  · by_cases hn : n = 0
    · simp [hn, divisorList]
    · rw [mem_divisorList hn, and_iff_right hn]

end Formula
