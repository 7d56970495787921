import FuzzyInference.Decimal.Shortest

/-!
# Layout of decimal digits

Where the point goes, when a power of ten is written out, and what stands for zero, the infinities
and not-a-number. A layout is a record of these decisions; the drawing is one function.
-/

namespace FuzzyInference.Decimal

/-- How digits are laid out as text. -/
structure Layout where
  /-- The least power of ten of a leading digit that is written without an exponent. -/
  lowest : Int
  /-- The greatest such power. -/
  highest : Int
  /-- Whether a whole number written without an exponent ends in a point and a zero. -/
  pointZero : Bool

namespace Layout

/-- A number inside text and messages. It reads back as a number that is not whole. -/
def exact : Layout := ⟨-4, 15, true⟩

/-- A number with four significant digits beside a drawing. -/
def brief : Layout := ⟨-4, 3, false⟩

def digitChars (n : Nat) : List Char := Nat.toDigits 10 n

/-- Digits without the zeros at their end. -/
def dropZeros (cs : List Char) : List Char := (cs.reverse.dropWhile (· == '0')).reverse

/-- A power of ten behind the mark: a sign and at least two digits. -/
def exponentChars (e : Int) : List Char :=
  let digits := digitChars e.natAbs
  'e' :: (if e < 0 then '-' else '+') :: (if digits.length < 2 then '0' :: digits else digits)

/-- The digits `cs` without an exponent, the leading one having the power `power`. -/
def positional (layout : Layout) (cs : List Char) (power : Int) : List Char :=
  if power < 0 then '0' :: '.' :: (List.replicate (-power - 1).toNat '0' ++ cs)
  else
    let whole := power.toNat + 1
    if cs.length ≤ whole then
      cs ++ List.replicate (whole - cs.length) '0' ++ (if layout.pointZero then ['.', '0'] else [])
    else cs.take whole ++ '.' :: cs.drop whole

def scientific (cs : List Char) (power : Int) : List Char :=
  (match cs with
    | [] => []
    | [c] => [c]
    | c :: rest => c :: '.' :: rest) ++ exponentChars power

def chars (layout : Layout) (d : Digits) : List Char :=
  let cs := digitChars d.digits
  let power := d.exponent + cs.length - 1
  if layout.lowest ≤ power ∧ power ≤ layout.highest then layout.positional (dropZeros cs) power
  else scientific (dropZeros cs) power

def zeroChars (layout : Layout) : List Char := if layout.pointZero then ['0', '.', '0'] else ['0']

end Layout

/-- A double taken apart: its sign and its absolute value. -/
inductive Double where
  | nan
  | infinite (negative : Bool)
  | zero (negative : Bool)
  | finite (negative : Bool) (value : Binary)

/-- The leading bit of a mantissa, which the bits of a double leave out: two to the fifty-second. -/
def Double.hidden : Nat := 0x10000000000000

/-- Takes apart the bits of a double: one of sign, eleven of exponent, fifty-two of fraction. -/
def Double.ofBits (bits : UInt64) : Double :=
  let n := bits.toNat
  let negative := decide (0x8000000000000000 ≤ n)
  let field : Nat := n / hidden % 0x800
  let fraction : Nat := n % hidden
  if field = 0x7FF then
    if fraction = 0 then .infinite negative else .nan
  else if field = 0 then
    if fraction = 0 then .zero negative else .finite negative ⟨fraction, -1074, false⟩
  else .finite negative ⟨fraction + hidden, (field : Int) - 1075, fraction == 0 && field != 1⟩

/-- The text of a double in a layout, the digits being chosen by `digits`. -/
def Double.chars (layout : Layout) (digits : Binary → Digits) : Double → List Char
  | .nan => ['n', 'a', 'n']
  | .infinite negative => signed negative ['i', 'n', 'f']
  | .zero negative => signed negative layout.zeroChars
  | .finite negative value => signed negative (layout.chars (digits value))
where
  signed (negative : Bool) (cs : List Char) : List Char := if negative then '-' :: cs else cs

/-- A double with the fewest digits that read back. -/
def exactText (x : Float) : String :=
  String.ofList ((Double.ofBits x.toBits).chars .exact Binary.shortest)

/-- A double with four significant digits. -/
def briefText (x : Float) : String :=
  String.ofList ((Double.ofBits x.toBits).chars .brief (Binary.rounded · 4))

end FuzzyInference.Decimal
