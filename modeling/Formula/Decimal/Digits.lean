/-!
# Runs of decimal digits

`value` reads a run of digits as a natural number, `text` writes a natural number as the run
without leading zeros, and `cut` splits a text at the first occurrence of a mark.
-/

namespace Formula.Digits

/-- The number a digit stands for. -/
def digitValue (c : Char) : Nat :=
  c.toNat - '0'.toNat

/-- The number a run of digits stands for; the empty run is zero. -/
def value (digits : List Char) : Nat :=
  digits.foldl (fun acc c => 10 * acc + digitValue c) 0

/-- The number written by a run of digits, provided that the run holds nothing else. -/
def value? (digits : List Char) : Option Nat :=
  if digits.all Char.isDigit then some (value digits) else none

/-- The digits of `n`, without leading zeros. -/
def text (n : Nat) : List Char :=
  Nat.toDigits 10 n

/-- The digits of an integer, behind its sign if it is negative. -/
def intText (n : Int) : List Char :=
  if n < 0 then '-' :: text n.natAbs else text n.natAbs

/-- What stands before and after the first `mark`. -/
def cut (mark : Char) : List Char → Option (List Char × List Char)
  | [] => none
  | c :: rest =>
    if c = mark then some ([], rest)
    else (cut mark rest).map fun (before, behind) => (c :: before, behind)

theorem cut_eq_some_iff {mark : Char} {s before behind : List Char} :
    cut mark s = some (before, behind) ↔ s = before ++ mark :: behind ∧ mark ∉ before := by
  induction s generalizing before with
  | nil => simp [cut]
  | cons c rest ih =>
    by_cases h : c = mark
    · subst h
      cases before <;> simp [cut]
      grind
    · cases before with
      | nil => simp [cut, h]
      | cons d before =>
        simp only [cut, h, if_false, Option.map_eq_some_iff, Prod.exists, Prod.mk.injEq]
        grind

end Formula.Digits
