import Formula.Decimal.Digits
import Formula.Fraction.Basic

/-!
# The text of fractions

A fraction is written in lowest terms, an integer without its denominator. Reading takes an optional
minus and then an integer, a quotient of two integers or a decimal, and keeps the terms as they are
written.
-/

namespace Formula.Fraction

/-- The sign, the numerator and, unless it is one, the denominator. -/
def partsText (negative : Bool) (numerator denominator : Nat) : List Char :=
  (if negative then ['-'] else []) ++ Digits.text numerator ++
    (if denominator = 1 then [] else '/' :: Digits.text denominator)

/-- The text of a fraction. -/
def text (f : Fraction) : String :=
  match f.simplified with
  | nan => "nan"
  | infinite true => "-inf"
  | infinite false => "inf"
  | finite negative numerator denominator =>
    String.ofList (partsText negative numerator denominator)

/-- The fraction written by a text without a sign. -/
def readMagnitude? (negative : Bool) (body : List Char) : Option Fraction :=
  match Digits.cut '/' body with
  | some (numerator, denominator) =>
    if numerator.isEmpty || denominator.isEmpty then none
    else
      match Digits.value? numerator, Digits.value? denominator with
      | some n, some d => some (ofParts negative n d)
      | _, _ => none
  | none =>
    match Digits.cut '.' body with
    | some (whole, decimals) =>
      let scale := Nat.pow 10 decimals.length
      match Digits.value? whole, Digits.value? decimals with
      | some w, some d => some (ofParts negative (w * scale + d) scale)
      | _, _ => none
    | none => (Digits.value? body).map fun n => ofParts negative n 1

/-- The fraction a text stands for. -/
def read? (text : List Char) : Option Fraction :=
  let (negative, body) :=
    match text with
    | '-' :: rest => (true, rest)
    | _ => (false, text)
  if body = [] ∨ body = ['.'] then none else readMagnitude? negative body

end Formula.Fraction
