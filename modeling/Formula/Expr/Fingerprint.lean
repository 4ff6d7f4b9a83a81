import Formula.Expr.Basic

/-!
# Fingerprints

The fingerprint of an expression is the sequence of items it is hashed by: those of its shape, and
then those of its numbers from left to right. Equal expressions have equal fingerprints, whatever
the signs of their zeros and however far their fractions are reduced.
-/

namespace Formula

/-- One item of a fingerprint. -/
inductive FingerprintItem where
  | tag (n : Nat)
  | kind (k : Kind)
  | flag (b : Bool)
  | word (n : Nat)
  | natural (n : Nat)
  | power (n : Int)
  | name (s : String)
  | unaryOp (op : UnaryOp)
  | binaryOp (op : BinaryOp)
deriving DecidableEq

/-- The sequence of items something is hashed by. -/
abbrev Fingerprint := List FingerprintItem

def Fraction.fingerprint (f : Fraction) : Fingerprint :=
  match f.simplified with
  | finite negative numerator denominator =>
    [.tag 0, .flag negative, .natural numerator, .natural denominator]
  | infinite negative => [.tag 1, .flag negative]
  | nan => [.tag 2]

/-- Adding zero gives both zeros the same word. -/
def Value.fingerprint (v : Value) : Fingerprint :=
  .kind v.kind ::
    match v with
    | double x => [.word (Floating.toWord (x + 0))]
    | single x => [.word (Floating.toWord (x + 0))]
    | fraction f => f.fingerprint

def Poly.fingerprint (p : Poly) : Fingerprint :=
  .kind p.kind ::
    p.query fun p => p.descending.flatMap fun (power, c) =>
      .power power :: (Scalar.toValue c).fingerprint

def Descriptor.fingerprint : Descriptor → Fingerprint
  | hole => [.tag 0]
  | constant kind => [.tag 1, .kind kind]
  | var name kind => [.tag 2, .name name, .kind kind]
  | poly kind => [.tag 3, .kind kind]
  | unary op kind operand => .tag 4 :: .unaryOp op :: .kind kind :: operand.fingerprint
  | binary op kind left right =>
    .tag 5 :: .binaryOp op :: .kind kind :: (left.fingerprint ++ right.fingerprint)

/-- The items of the numbers, from left to right. -/
def Expr.leafFingerprint : Expr → Fingerprint
  | constant value => value.fingerprint
  | poly p => p.fingerprint
  | unary _ operand => operand.leafFingerprint
  | binary _ left right => left.leafFingerprint ++ right.leafFingerprint
  | var .. => []
  | hole => []

def Expr.fingerprint (e : Expr) : Fingerprint :=
  e.descriptor.fingerprint ++ e.leafFingerprint

end Formula
