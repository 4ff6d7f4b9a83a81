import Formula.Decimal.Style

/-!
# JSON text

The part of JSON that results are printed in: objects, strings, numbers and null, written without
blanks.
-/

namespace Formula

/-- A JSON value. -/
inductive Json where
  | null
  | number (x : Float)
  | text (s : String)
  | object (fields : List (String × Json))

namespace Json

/-- Numbers are positional from `0.00001` up to below `10 ^ 16`; what JSON has no number for is
null. -/
def numberStyle : NumberStyle where
  positional := some (-5, 15)
  keepsPoint := true
  plusSign := true
  tie := .even
  nan := "null"
  infinity := "null"
  negativeInfinity := "null"

/-- A character as it stands in a string. -/
def escapedChar (c : Char) : List Char :=
  if c = '"' then ['\\', '"']
  else if c = '\\' then ['\\', '\\']
  else if c = '\n' then ['\\', 'n']
  else if c = '\r' then ['\\', 'r']
  else if c = '\t' then ['\\', 't']
  else if c.toNat = 8 then ['\\', 'b']
  else if c.toNat = 12 then ['\\', 'f']
  else if c.toNat < 32 then
    ['\\', 'u', '0', '0', Nat.digitChar (c.toNat / 16), Nat.digitChar (c.toNat % 16)]
  else [c]

/-- A string between its quotes. -/
def stringText (s : String) : String :=
  String.ofList ('"' :: (s.toList.flatMap escapedChar ++ ['"']))

mutual

/-- The text of a JSON value. -/
def render : Json → String
  | null => "null"
  | number x => numberStyle.write x
  | text s => stringText s
  | object fields => "\x7b" ++ renderFields fields ++ "\x7d"

/-- The fields of an object, with commas between them. -/
def renderFields : List (String × Json) → String
  | [] => ""
  | [(name, value)] => stringText name ++ ":" ++ render value
  | (name, value) :: rest => stringText name ++ ":" ++ render value ++ "," ++ renderFields rest

end

end Json

end Formula
