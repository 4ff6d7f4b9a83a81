/-!
# Divisors

Prime factorization by trial division, and from it the list of all divisors in ascending order.
-/

namespace Formula

/-- Divides `n` by `d` as often as it goes: how often that is, added to `count`, and what is
left. -/
def divideOut (d n count : Nat) : Nat × Nat :=
  if 1 < d ∧ 0 < n ∧ n % d = 0 then divideOut d (n / d) (count + 1) else (count, n)
termination_by n
decreasing_by exact Nat.div_lt_self (by omega) (by omega)

theorem divideOut_snd_le (d n count : Nat) : (divideOut d n count).2 ≤ n := by
  fun_induction divideOut d n count with
  | case1 n count _ ih => exact Nat.le_trans ih (Nat.div_le_self n d)
  | case2 => exact Nat.le_refl _

/-- Puts a prime in front of the factors found so far, unless it does not divide. -/
def consFactor (p count : Nat) (found : List (Nat × Nat)) : List (Nat × Nat) :=
  if 0 < count then (p, count) :: found else found

/-- The factors of `n` that are at least `i`, in front of those found so far. Only every second
candidate from `i` on is tried, and the search ends when their squares exceed what is left. -/
def oddFactors (i n : Nat) (found : List (Nat × Nat)) : List (Nat × Nat) :=
  if h : 0 < i ∧ i * i ≤ n then
    oddFactors (i + 2) (divideOut i n 0).2 (consFactor i (divideOut i n 0).1 found)
  else if n = 1 then found
  else (n, 1) :: found
termination_by n + 1 - i
decreasing_by
  have : i ≤ n := Nat.le_trans (Nat.le_mul_self i) h.2
  have := divideOut_snd_le i n 0
  omega

/-- The primes that divide `n`, in ascending order, each with its exponent. Zero has none. -/
def primeFactors (n : Nat) : List (Nat × Nat) :=
  if n ≤ 1 then []
  else (oddFactors 3 (divideOut 2 n 0).2 (consFactor 2 (divideOut 2 n 0).1 [])).reverse

/-- The products of the given divisors with the powers of `p` up to exponent `e`. -/
def extendDivisors (divisors : List Nat) (p e : Nat) : List Nat :=
  divisors.flatMap fun d => (List.range (e + 1)).map fun k => d * Nat.pow p k

/-- The divisors of `n` in ascending order. Zero has none. -/
def divisorList (n : Nat) : List Nat :=
  if n = 0 then []
  else ((primeFactors n).foldl (fun acc (p, e) => extendDivisors acc p e) [1]).mergeSort

end Formula
