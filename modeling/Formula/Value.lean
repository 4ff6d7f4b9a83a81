import Formula.Scalar

/-!
# Values

Operations on two values first bring them to the kind in which they meet. Equality tells kinds
apart, while the order compares values across kinds.
-/

namespace Formula.Value

/-! ## Kinds and conversions -/

def kind : Value → Kind
  | double _ => .double
  | single _ => .single
  | fraction _ => .fraction

/-- The value as a 64-bit number. -/
def toDouble : Value → Float
  | double x => x
  | single x => Floating.convert x
  | fraction f => f.toDouble

/-- The value as a 32-bit number. A fraction passes through 64 bits. -/
def toSingle : Value → Float32
  | double x => Floating.convert x
  | single x => x
  | fraction f => Floating.convert f.toDouble

/-- The value as a fraction. -/
def toFraction : Value → Fraction
  | double x => .ofDouble x
  | single x => .ofDouble (Floating.convert x)
  | fraction f => f

/-- The value in another kind. -/
def promote (v : Value) : Kind → Value
  | .double => double v.toDouble
  | .single => single v.toSingle
  | .fraction => fraction v.toFraction

/-- Both values in the kind in which they meet. -/
def unify (v w : Value) : Value × Value :=
  let k := v.kind.combine w.kind
  (v.promote k, w.promote k)

/-- A 64-bit number in the given kind. -/
def ofDouble (k : Kind) (x : Float) : Value :=
  (double x).promote k

/-- The same constant of each scalar type. -/
def ofConstant (c : (α : Type) → [Scalar α] → α) : Kind → Value
  | .double => double (c Float)
  | .single => single (c Float32)
  | .fraction => fraction (c Fraction)

def zero : Kind → Value := ofConstant fun _ => Scalar.zero
def one : Kind → Value := ofConstant fun _ => Scalar.one
def least : Kind → Value := ofConstant fun _ => Scalar.least
def greatest : Kind → Value := ofConstant fun _ => Scalar.greatest
def infinity (k : Kind) : Value := ofDouble k (Floating.infinity false)
def nan (k : Kind) : Value := ofDouble k Floating.nan

/-! ## Lifting from scalars -/

/-- A question asked of the number inside. -/
def query {β : Type} (f : {α : Type} → [Scalar α] → α → β) : Value → β
  | double x => f x
  | single x => f x
  | fraction x => f x

/-- An operation on the number inside. -/
def map (f : {α : Type} → [Scalar α] → α → α) : Value → Value
  | double x => double (f x)
  | single x => single (f x)
  | fraction x => fraction (f x)

/-- An operation on two values, carried out in the kind in which they meet. -/
def zip (f : {α : Type} → [Scalar α] → α → α → α) (v w : Value) : Value :=
  match v.kind.combine w.kind with
  | .double => double (f v.toDouble w.toDouble)
  | .single => single (f v.toSingle w.toSingle)
  | .fraction => fraction (f v.toFraction w.toFraction)

/-! ## Predicates -/

def isNaN (v : Value) : Bool := v.query Scalar.isNaN
def isZero (v : Value) : Bool := v.query Scalar.isZero
def isWhole (v : Value) : Bool := v.query Scalar.isWhole
def isNegative (v : Value) : Bool := v.query Scalar.isNegative

/-- Equality of kinds and of values. -/
def beq : Value → Value → Bool
  | double x, double y => x == y
  | single x, single y => x == y
  | fraction x, fraction y => x == y
  | _, _ => false

instance : BEq Value := ⟨beq⟩

def isOne (v : Value) : Bool := v == one v.kind

/-- The order of two values in the kind in which they meet, unless one of them is NaN. -/
def compare? (v w : Value) : Option Ordering :=
  match v.kind.combine w.kind with
  | .double => Scalar.compare? v.toDouble w.toDouble
  | .single => Scalar.compare? v.toSingle w.toSingle
  | .fraction => Scalar.compare? v.toFraction w.toFraction

/-- Whether `v` is known to be less than `w`. -/
def lt (v w : Value) : Bool :=
  v.compare? w == some .lt

/-- Whether `v` is known to be at most `w`. -/
def le (v w : Value) : Bool :=
  v.compare? w == some .lt || v.compare? w == some .eq

/-- The integer a whole value stands for, as far as 64-bit numbers can tell, if its magnitude is
below `2 ^ 63`. -/
def toWhole? (v : Value) : Option Int :=
  if v.isWhole then
    match Floating.decode v.toDouble with
    | .finite .. =>
      let n := Floating.truncate v.toDouble
      if n.natAbs < Fraction.wordBound then some n else none
    | _ => none
  else none

/-! ## Operations -/

def abs (v : Value) : Value := v.map Scalar.abs
def sqrt (v : Value) : Value := v.map Scalar.sqrt
def ln (v : Value) : Value := v.map Scalar.ln
def log2 (v : Value) : Value := v.map Scalar.log2
def log10 (v : Value) : Value := v.map Scalar.log10
def factorial (v : Value) : Value := v.map Scalar.factorial
def neg (v : Value) : Value := v.map (- ·)

def add (v w : Value) : Value := zip (· + ·) v w
def sub (v w : Value) : Value := zip (· - ·) v w
def mul (v w : Value) : Value := zip (· * ·) v w
def div (v w : Value) : Value := zip (· / ·) v w
def pow (v w : Value) : Value := zip Scalar.pow v w
def logBase (v w : Value) : Value := zip Scalar.logBase v w
def modulo (v w : Value) : Value := zip Scalar.modulo v w

/-- Whether the power of two values can be taken: over fractions, not every exponent fits. -/
def powFits (v w : Value) : Bool :=
  match v.kind.combine w.kind with
  | .fraction => w.toFraction.exponentFits
  | _ => true

instance : Neg Value := ⟨neg⟩
instance : Add Value := ⟨add⟩
instance : Sub Value := ⟨sub⟩
instance : Mul Value := ⟨mul⟩
instance : Div Value := ⟨div⟩

/-- The lesser value, in the kind of `v`; `v` itself unless it is known to be greater. -/
def min (v w : Value) : Value :=
  if v.compare? w == some .gt then w.promote v.kind else v

/-- The greater value, in the kind of `v`; `v` itself unless it is known to be less. -/
def max (v w : Value) : Value :=
  if v.compare? w == some .lt then w.promote v.kind else v

/-! ## Text -/

/-- Values are written positionally from `0.0001` up to below `10 ^ 16`, with at least one decimal,
and beyond that with an exponent. -/
def valueStyle : NumberStyle where
  positional := some (-4, 15)
  keepsPoint := true
  plusSign := false
  tie := .greater
  nan := "NaN"
  infinity := "inf"
  negativeInfinity := "-inf"

/-- The text of a value. -/
def text : Value → String
  | double x => valueStyle.write x
  | single x => valueStyle.write x
  | fraction f => f.text

end Formula.Value
