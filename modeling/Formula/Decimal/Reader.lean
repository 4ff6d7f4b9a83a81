import Formula.Binary.Floating
import Formula.Decimal.Digits

/-!
# Reading machine numbers

A number is an optional sign and either a word for infinity or NaN, in any case, or digits with an
optional point and an optional exponent. `read?` gives the machine number nearest to the exact
value of the text.
-/

namespace Formula

/-- What a decimal literal says: its digits as a whole number, and the power of ten to apply. -/
structure Scientific where
  digits : List Char
  exponent : Int

namespace Scientific

/-- Takes a sign off the front. The flag tells whether it was a minus. -/
def takeSign : List Char → Bool × List Char
  | '-' :: rest => (true, rest)
  | '+' :: rest => (false, rest)
  | text => (false, text)

/-- Digits with an optional point among them, at least one digit in all. -/
def ofMantissa? (text : List Char) : Option Scientific :=
  let whole := text.takeWhile Char.isDigit
  match text.dropWhile Char.isDigit with
  | [] => if whole.isEmpty then none else some ⟨whole, 0⟩
  | '.' :: decimals =>
    if decimals.all Char.isDigit && !(whole.isEmpty && decimals.isEmpty) then
      some ⟨whole ++ decimals, -decimals.length⟩
    else none
  | _ => none

/-- The exponent behind its mark: an optional sign and at least one digit. -/
def exponent? (text : List Char) : Option Int :=
  let (negative, digits) := takeSign text
  if digits.isEmpty then none
  else (Digits.value? digits).map fun n => if negative then -(n : Int) else n

/-- A number without its sign. -/
def ofText? (text : List Char) : Option Scientific :=
  let mantissa := text.takeWhile fun c => c != 'e' && c != 'E'
  match text.dropWhile fun c => c != 'e' && c != 'E' with
  | [] => ofMantissa? mantissa
  | _ :: rest =>
    match ofMantissa? mantissa, exponent? rest with
    | some s, some e => some { s with exponent := s.exponent + e }
    | _, _ => none

/-- The nearest machine number. Texts so large or so small that they must round to infinity or to
zero are recognised by the place of their first digit, before any power of ten is computed. -/
def toFloating {α : Type} [Floating α] (negative : Bool) (s : Scientific) : α :=
  let digits := s.digits.dropWhile (· == '0')
  let reach : Int := (Nat.pow 2 ((Floating.format α).exponentBits - 1) : Nat)
  let place : Int := digits.length + s.exponent
  if digits.isEmpty || place < -(reach + (Floating.format α).fractionBits) then
    Floating.ofRatio negative 0 1
  else if reach < place then Floating.infinity negative
  else
    Floating.ofRatio negative (Digits.value digits * Nat.pow 10 s.exponent.toNat)
      (Nat.pow 10 (-s.exponent).toNat)

end Scientific

/-- The machine number a text stands for. -/
def Floating.read? {α : Type} [Floating α] (text : List Char) : Option α :=
  let (negative, body) := Scientific.takeSign text
  let word := String.ofList (body.map Char.toLower)
  if word = "inf" || word = "infinity" then some (Floating.infinity negative)
  else if word = "nan" then some Floating.nan
  else (Scientific.ofText? body).map (Scientific.toFloating negative)

end Formula
