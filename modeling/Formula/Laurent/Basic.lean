import Formula.Scalar

/-!
# Laurent polynomials

A `Laurent` polynomial is a sum of terms `c * x ^ p` with integer powers `p`, also negative ones.
Its terms are listed by ascending power, and terms with a zero coefficient are dropped by every
operation that could produce one.

The running program holds powers in 64 bits, and ends where a sum of powers or the negation of one does
not fit. `multiplied`, `reciprocal` and `power` know no such bound; `multiplied?`, `reciprocal?` and
`power?` are what the program does, with all the powers it meets on the way: a power to a negative
exponent goes through the power to the magnitude of this exponent.
-/

namespace Formula

/-- A polynomial in one variable with integer powers. -/
structure Laurent (α : Type) where
  /-- Powers and coefficients, by ascending power. -/
  terms : List (Int × α)

namespace Laurent

variable {α : Type} [Scalar α]

/-! ## Term lists -/

/-- Sets the coefficient of `power` to what `f` makes of the one that is there, if any. -/
def upsert (power : Int) (f : Option α → α) : List (Int × α) → List (Int × α)
  | [] => [(power, f none)]
  | (p, c) :: rest =>
    if power < p then (power, f none) :: (p, c) :: rest
    else if power = p then (p, f (some c)) :: rest
    else (p, c) :: upsert power f rest

/-- Adds `c * x ^ power` to the terms. -/
def accumulate (terms : List (Int × α)) (power : Int) (c : α) : List (Int × α) :=
  upsert power (fun old => old.getD Scalar.zero + c) terms

/-- Drops the terms with a zero coefficient. -/
def dropZeros (terms : List (Int × α)) : List (Int × α) :=
  terms.filter fun (_, c) => !Scalar.isZero c

/-! ## Construction -/

/-- The polynomial with the given terms, in any order. Of two terms with one power the later one
counts. -/
def ofTerms (terms : List (Int × α)) : Laurent α :=
  ⟨dropZeros (terms.foldl (fun acc (power, c) => upsert power (fun _ => c) acc) [])⟩

/-- The polynomial with the given coefficients, from the highest power down to power zero. -/
def ofCoefficients (coefficients : List α) : Laurent α :=
  ofTerms (coefficients.reverse.zipIdx.map fun (c, power) => ((power : Int), c))

def zero : Laurent α := ⟨[]⟩

/-- The polynomial `c * x ^ power`. -/
def monomial (c : α) (power : Int) : Laurent α :=
  ofTerms [(power, c)]

def constant (c : α) : Laurent α :=
  monomial c 0

/-- The polynomial `x`. -/
def identity : Laurent α :=
  monomial Scalar.one 1

/-! ## Parts -/

/-- The terms by descending power. -/
def descending (p : Laurent α) : List (Int × α) :=
  p.terms.reverse

def termCount (p : Laurent α) : Nat :=
  p.terms.length

/-- The coefficient of a power, zero if there is no such term. -/
def coefficient (p : Laurent α) (power : Int) : α :=
  (p.terms.lookup power).getD Scalar.zero

/-- The greatest power; zero for the zero polynomial. -/
def largestPower (p : Laurent α) : Int :=
  (p.terms.getLast?.map Prod.fst).getD 0

/-- The least power; zero for the zero polynomial. -/
def smallestPower (p : Laurent α) : Int :=
  (p.terms.head?.map Prod.fst).getD 0

def leadingCoefficient (p : Laurent α) : α :=
  p.coefficient p.largestPower

def constantTerm (p : Laurent α) : α :=
  p.coefficient 0

def isZero (p : Laurent α) : Bool :=
  p.terms.isEmpty

def isMonomial (p : Laurent α) : Bool :=
  p.termCount == 1

def isConstant (p : Laurent α) : Bool :=
  p.isZero || (p.isMonomial && p.largestPower == 0)

/-- Equality of powers and of coefficients. -/
def beq (p q : Laurent α) : Bool :=
  p.terms.length == q.terms.length &&
    (p.terms.zip q.terms).all fun ((i, c), (j, d)) => i == j && c == d

instance : BEq (Laurent α) := ⟨beq⟩

/-! ## Arithmetic -/

/-- The value at `x`, summed from the lowest power up. -/
def eval (p : Laurent α) (x : α) : α :=
  p.terms.foldl (fun acc (power, c) => acc + c * Scalar.powInt x power) Scalar.zero

def added (p q : Laurent α) : Laurent α :=
  ⟨dropZeros (q.terms.foldl (fun acc (power, c) => accumulate acc power c) p.terms)⟩

def negated (p : Laurent α) : Laurent α :=
  ⟨p.terms.map fun (power, c) => (power, -c)⟩

def subtracted (p q : Laurent α) : Laurent α :=
  p.added q.negated

def multiplied (p q : Laurent α) : Laurent α :=
  ⟨dropZeros (p.terms.foldl
    (fun acc (i, c) => q.terms.foldl (fun acc (j, d) => accumulate acc (i + j) (c * d)) acc) [])⟩

/-- Each term replaced by its own reciprocal; this inverts monomials only. -/
def reciprocal (p : Laurent α) : Laurent α :=
  ofTerms (p.terms.map fun (power, c) => (-power, Scalar.one / c))

/-- The `n`-th power. -/
def powNat (p : Laurent α) : Nat → Laurent α
  | 0 => constant Scalar.one
  | n + 1 => (p.powNat n).multiplied p

/-- The power to an integer exponent; negative exponents are meant for monomials. -/
def power (p : Laurent α) (n : Int) : Laurent α :=
  if n < 0 then (p.powNat n.natAbs).reciprocal else p.powNat n.natAbs

/-! ### Powers of 64 bits -/

/-- Whether all powers of a product fit, those of terms that cancel included. -/
def productFits (p q : Laurent α) : Bool :=
  p.terms.all fun (i, _) => q.terms.all fun (j, _) => Fraction.isWord (i + j)

/-- The product, unless a power overflows. -/
def multiplied? (p q : Laurent α) : Option (Laurent α) :=
  if p.productFits q then some (p.multiplied q) else none

/-- Whether all powers can be negated. -/
def reciprocalFits (p : Laurent α) : Bool :=
  p.terms.all fun (i, _) => Fraction.isWord (-i)

/-- The reciprocals of the terms, unless a power overflows. -/
def reciprocal? (p : Laurent α) : Option (Laurent α) :=
  if p.reciprocalFits then some p.reciprocal else none

/-- The `n`-th power, unless a power overflows on the way. -/
def powNat? (p : Laurent α) : Nat → Option (Laurent α)
  | 0 => some (constant Scalar.one)
  | n + 1 => (p.powNat? n).bind (·.multiplied? p)

/-- The power to an integer exponent, unless a power overflows on the way. -/
def power? (p : Laurent α) (n : Int) : Option (Laurent α) :=
  (p.powNat? n.natAbs).bind fun q => if n < 0 then q.reciprocal? else some q

theorem multiplied?_eq_some {p q r : Laurent α} (h : p.multiplied? q = some r) :
    r = p.multiplied q := by
  unfold multiplied? at h
  split at h <;> cases h
  rfl

theorem reciprocal?_eq_some {p r : Laurent α} (h : p.reciprocal? = some r) : r = p.reciprocal := by
  unfold reciprocal? at h
  split at h <;> cases h
  rfl

theorem powNat?_eq_some {p r : Laurent α} {n : Nat} (h : p.powNat? n = some r) :
    r = p.powNat n := by
  induction n generalizing r with
  | zero =>
    cases h
    rfl
  | succ n ih =>
    obtain ⟨q, hq, hr⟩ := Option.bind_eq_some_iff.1 h
    cases ih hq
    exact multiplied?_eq_some hr

/-- What the program makes of a power is the power. -/
theorem power?_eq_some {p r : Laurent α} {n : Int} (h : p.power? n = some r) : r = p.power n := by
  obtain ⟨q, hq, hr⟩ := Option.bind_eq_some_iff.1 h
  cases powNat?_eq_some hq
  unfold power
  split at hr
  · next hneg =>
    rw [if_pos hneg]
    exact reciprocal?_eq_some hr
  · next hneg =>
    cases hr
    rw [if_neg hneg]

instance : Add (Laurent α) := ⟨added⟩
instance : Neg (Laurent α) := ⟨negated⟩
instance : Sub (Laurent α) := ⟨subtracted⟩
instance : Mul (Laurent α) := ⟨multiplied⟩

/-! ## Limits -/

/-- Infinity with a sign. -/
def signedInfinity (negative : Bool) : α :=
  if negative then -Scalar.infinity else Scalar.infinity

/-- The limit as `x` grows beyond all bounds, or falls below all bounds if `fromBelow`. -/
def limitAtInfinity (p : Laurent α) (fromBelow : Bool) : α :=
  if 0 < p.largestPower then
    signedInfinity (Scalar.isNegative p.leadingCoefficient !=
      (fromBelow && p.largestPower % 2 != 0))
  else p.constantTerm

/-- The limit as `x` tends to zero from above, or from below. -/
def limitAtZero (p : Laurent α) (fromBelow : Bool) : α :=
  if p.smallestPower < 0 then
    signedInfinity (Scalar.isNegative (p.coefficient p.smallestPower) !=
      (fromBelow && p.smallestPower % 2 != 0))
  else p.constantTerm

/-! ## Text -/

/-- The terms from the highest power down, as `3x^2 + 1x^0`. -/
def text (p : Laurent α) : String :=
  if p.isZero then Scalar.text (Scalar.zero : α)
  else
    " + ".intercalate (p.descending.map fun (power, c) =>
      Scalar.text c ++ "x^" ++ String.ofList (Digits.intText power))

end Laurent

end Formula
