import Formula.Decimal.Shortest

/-!
# How machine numbers are written

A `NumberStyle` settles everything about the text of a number but its digits, which are always the
fewest that read back: where positional writing ends, whether a whole number keeps a point, and how
exponents, infinities and NaN are spelled.
-/

namespace Formula

/-- The choices in the text of a machine number. -/
structure NumberStyle where
  /-- The least and the greatest decimal exponent written positionally; `none` for all. -/
  positional : Option (Int × Int)
  /-- Whether a positional number always has a decimal. -/
  keepsPoint : Bool
  /-- Whether an exponent that is not negative has a sign. -/
  plusSign : Bool
  /-- Which digits are taken if two choices of the fewest are equally near. -/
  tie : Tie
  nan : String
  infinity : String
  negativeInfinity : String

namespace NumberStyle

/-- Positional writing of the digits with the point before position `point`. -/
def positionalText (style : NumberStyle) (digits : List Char) (point : Int) : List Char :=
  if point ≤ 0 then '0' :: '.' :: (List.replicate (-point).toNat '0' ++ digits)
  else if digits.length ≤ point.toNat then
    digits ++ List.replicate (point.toNat - digits.length) '0' ++
      (if style.keepsPoint then ['.', '0'] else [])
  else digits.take point.toNat ++ '.' :: digits.drop point.toNat

/-- Writing of the digits with one of them before the point and an exponent. -/
def scientificText (style : NumberStyle) (digits : List Char) (exponent : Int) : List Char :=
  let sign := if exponent < 0 then ['-'] else if style.plusSign then ['+'] else []
  let mantissa :=
    match digits with
    | [] => ['0']
    | [d] => [d]
    | d :: rest => d :: '.' :: rest
  mantissa ++ 'e' :: (sign ++ Digits.text exponent.natAbs)

/-- The text of a decimal. -/
def magnitudeText (style : NumberStyle) (d : Decimal) : List Char :=
  let digits := Digits.text d.significand
  let exponent := d.exponent + digits.length - 1
  let isPositional :=
    match style.positional with
    | none => true
    | some (least, greatest) => decide (least ≤ exponent ∧ exponent ≤ greatest)
  if isPositional then style.positionalText digits (exponent + 1)
  else style.scientificText digits exponent

/-- The text of a machine number. -/
def write {α : Type} [Floating α] (style : NumberStyle) (x : α) : String :=
  match Floating.decode x with
  | .nan => style.nan
  | .infinite negative => if negative then style.negativeInfinity else style.infinity
  | .finite negative significand exponent =>
    let magnitude :=
      if significand = 0 then style.positionalText ['0'] 1
      else style.magnitudeText (Decimal.shortest (Floating.format α) style.tie significand exponent)
    String.ofList (if negative then '-' :: magnitude else magnitude)

end NumberStyle

end Formula
