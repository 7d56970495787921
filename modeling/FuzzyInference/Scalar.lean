import FuzzyInference.Decimal.Layout
import FuzzyInference.Decimal.Numeral

/-!
# Scalars

The numbers that memberships, weights and grids are made of. Every definition of inference is
written once, over a scalar type: doubles are what a controller runs on, and the rationals give the
exact values that the same definitions describe.
-/

namespace FuzzyInference

/-- Why a scalar has no integer part. -/
inductive NonFinite where
  | nan
  | infinite
  deriving Repr, DecidableEq

/-- The arithmetic, the comparisons and the written form of a scalar type. Comparisons with a value
that is not a number fail, and division is total. -/
class Scalar (α : Type) extends Zero α, One α, NatCast α, Add α, Sub α, Mul α, Div α, LE α, LT α,
    BEq α where
  decidableLE : DecidableLE α
  decidableLT : DecidableLT α
  /-- The value nearest to a written number. -/
  ofNumeral : Numeral → α
  /-- The greatest integer that is not greater. -/
  floor? : α → Except NonFinite Int
  /-- The number in messages and files. -/
  text : α → String
  /-- The number with four significant digits. -/
  briefText : α → String

attribute [reducible, instance] Scalar.decidableLE Scalar.decidableLT

namespace Scalar

variable {α : Type} [Scalar α]

/-- The value nearest to an integer. -/
def ofInt (i : Int) : α := ofNumeral (.ofInt i)

def half : α := ofNumeral (.finite false 5 (-1))

def billionth : α := ofNumeral (.finite false 1 (-9))

/-- Whether a value differs from itself, as only not-a-number does. -/
def isNaN (a : α) : Bool := !(a == a)

/-- The smaller of two values; not-a-number on either side wins. -/
def minimum (a b : α) : α :=
  if isNaN a then a else if isNaN b then b else if a < b then a else b

def maximum (a b : α) : α :=
  if isNaN a then a else if isNaN b then b else if b < a then a else b

/-- The integer part, cut off towards zero. -/
def truncate? (a : α) : Except NonFinite Int :=
  if a < 0 then (floor? (0 - a)).map (- ·) else floor? a

end Scalar

/-- The count of decimal digits of a natural number. -/
def digitCount (n : Nat) : Nat := (Nat.toDigits 10 n).length

/-- The double nearest to a written number. Numbers beyond the range of doubles are decided by their
power of ten, so that no power is built that could not matter. -/
def Numeral.toFloat : Numeral → Float
  | .nan => 0.0 / 0.0
  | .infinite negative => signed negative (1.0 / 0.0)
  | .finite negative digits exponent =>
    let power := exponent + digitCount digits
    signed negative <|
      if digits = 0 ∨ power < -330 then 0.0
      else if 310 < power then 1.0 / 0.0
      else Float.ofScientific digits (decide (exponent < 0)) exponent.natAbs
where
  signed (negative : Bool) (x : Float) : Float := if negative then -x else x

/-- The greatest integer that is not greater than a double, computed from its bits. -/
def floatFloor? (x : Float) : Except NonFinite Int :=
  match Decimal.Double.ofBits x.toBits with
  | .nan => .error .nan
  | .infinite _ => .error .infinite
  | .zero _ => .ok 0
  | .finite negative value =>
    let (num, den) := value.ratio
    .ok (Int.fdiv (if negative then -(num : Int) else num) den)

instance : Scalar Float where
  natCast := Float.ofNat
  decidableLE := inferInstance
  decidableLT := inferInstance
  ofNumeral := Numeral.toFloat
  floor? := floatFloor?
  text := Decimal.exactText
  briefText := Decimal.briefText

/-- The rational that a numeral writes. A word for a number that is not finite names no rational
and is read as zero. -/
def Numeral.toRat : Numeral → Rat
  | .nan => 0
  | .infinite _ => 0
  | .finite negative digits exponent =>
    let size : Rat :=
      if 0 ≤ exponent then ((digits * Nat.pow 10 exponent.toNat : Nat) : Rat)
      else (digits : Rat) / (Nat.pow 10 (-exponent).toNat : Rat)
    if negative then -size else size

/-- A rational as a whole number or a quotient of two. -/
def ratText (q : Rat) : String :=
  if q.den = 1 then toString q.num else toString q.num ++ "/" ++ toString q.den

instance : Scalar Rat where
  zero := 0
  one := 1
  decidableLE := inferInstance
  decidableLT := inferInstance
  ofNumeral := Numeral.toRat
  floor? q := .ok q.floor
  text := ratText
  briefText := ratText

end FuzzyInference
