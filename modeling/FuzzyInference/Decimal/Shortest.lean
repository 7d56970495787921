/-!
# Shortest decimal digits

The digits that a binary floating point number is shown with. Among the decimal fractions that lie
closer to the number than to any other of its format, one with the fewest digits is taken, and of
those the nearest. Everything is exact arithmetic on natural numbers.
-/

namespace FuzzyInference.Decimal

/-- The number `digits * 10 ^ exponent`. -/
structure Digits where
  digits : Nat
  exponent : Int
  deriving Repr, DecidableEq

/-- A positive number `mantissa * 2 ^ exponent` of a binary format. `narrow` holds when the next
smaller number of the format is only half as far away as the next larger one. -/
structure Binary where
  mantissa : Nat
  exponent : Int
  narrow : Bool
  deriving Repr, DecidableEq

namespace Binary

/-- Numerator and denominator of the number. -/
def ratio (b : Binary) : Nat × Nat :=
  if 0 ≤ b.exponent then (b.mantissa * Nat.pow 2 b.exponent.toNat, 1)
  else (b.mantissa, Nat.pow 2 (-b.exponent).toNat)

/-- Numerator and denominator of the number divided by `10 ^ place`. -/
def scaled (b : Binary) (place : Int) : Nat × Nat :=
  let (num, den) := b.ratio
  if 0 ≤ place then (num, den * Nat.pow 10 place.toNat)
  else (num * Nat.pow 10 (-place).toNat, den)

/-- The greatest `e` with `10 ^ e` at most the number, by an estimate from the binary exponent that
is then put right. -/
def magnitude (b : Binary) : Int :=
  -- the logarithm of two to the base ten is 0.30103
  let estimate := (b.exponent + b.mantissa.log2) * 30103 / 100000
  let fits (e : Int) : Bool := let (num, den) := b.scaled e; den ≤ num
  if fits (estimate + 1) then estimate + 1 else if fits estimate then estimate else estimate - 1

/-- The interval of numbers that are rounded to this one, times four over the unit of the mantissa:
its lower end, its upper end, and whether the ends belong to it. -/
def interval (b : Binary) : Nat × Nat × Bool :=
  (4 * b.mantissa - (if b.narrow then 1 else 2), 4 * b.mantissa + 2, b.mantissa % 2 == 0)

/-- Whether `n * 10 ^ place` is rounded to this number. -/
def covers (b : Binary) (place : Int) (n : Nat) : Bool :=
  let (num, den) := { b with mantissa := 1 : Binary }.scaled place
  let (low, high, closed) := b.interval
  let value := 4 * n * den
  if closed then low * num ≤ value && value ≤ high * num
  else low * num < value && value < high * num

/-- The two neighbours of the number among the multiples of `10 ^ place`, the nearer one first; of
two equally near the even one comes first. -/
def neighbours (b : Binary) (place : Int) : Nat × Nat :=
  let (num, den) := b.scaled place
  let below := num / den
  let twice := 2 * (num % den)
  if twice < den ∨ (twice = den ∧ below % 2 = 0) then (below, below + 1) else (below + 1, below)

def nearest (b : Binary) (place : Int) : Nat := (b.neighbours place).1

/-- Looks for a decimal fraction that is rounded to the number, with one more digit at every step.
`fuel` bounds the steps left; seventeen digits always suffice for a double. -/
def search (b : Binary) (magnitude : Int) : (fuel : Nat) → (count : Int) → Digits
  | 0, count => ⟨b.nearest (magnitude - count), magnitude - count⟩
  | fuel + 1, count =>
    let place := magnitude - count
    let (near, far) := b.neighbours place
    if b.covers place near then ⟨near, place⟩
    else if b.covers place far then ⟨far, place⟩
    else b.search magnitude fuel (count + 1)

/-- The fewest digits that are read back as the number, and of those the nearest. -/
def shortest (b : Binary) : Digits := b.search b.magnitude 16 0

/-- The number rounded to `count` significant digits, a half going to the even neighbour. -/
def rounded (b : Binary) (count : Nat) : Digits :=
  let place := b.magnitude - (count - 1 : Int)
  ⟨b.nearest place, place⟩

end Binary

end FuzzyInference.Decimal
