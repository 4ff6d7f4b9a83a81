/-!
# Scalar kinds

The three number representations an expression can be built over, and the rule for which of two
kinds an operation on mixed operands is carried out in.
-/

namespace Formula

/-- How the numbers of an expression are represented. -/
inductive Kind where
  /-- Binary floating point of 64 bits. -/
  | double
  /-- Binary floating point of 32 bits. -/
  | single
  /-- Exact fractions of integers. -/
  | fraction
deriving DecidableEq, Inhabited

namespace Kind

/-- Rank in mixed arithmetic: the operand of higher rank decides the kind of the result. -/
def priority : Kind → Nat
  | fraction => 0
  | single => 1
  | double => 2

/-- The kind in which operands of kinds `a` and `b` meet. -/
def combine (a b : Kind) : Kind :=
  if a.priority < b.priority then b else a

/-- Whether arithmetic of this kind is free of rounding. -/
def isExact (k : Kind) : Bool :=
  k == fraction

/-- The word that names the kind in messages. -/
def name : Kind → String
  | double => "double"
  | single => "float"
  | fraction => "fraction"

theorem priority_injective {a b : Kind} (h : a.priority = b.priority) : a = b := by
  cases a <;> cases b <;> simp_all [priority]

theorem combine_self (a : Kind) : a.combine a = a := by simp [combine]

theorem combine_comm (a b : Kind) : a.combine b = b.combine a := by
  cases a <;> cases b <;> rfl

theorem combine_assoc (a b c : Kind) : (a.combine b).combine c = a.combine (b.combine c) := by
  cases a <;> cases b <;> cases c <;> rfl

end Kind

end Formula
