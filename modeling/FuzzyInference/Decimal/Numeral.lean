import FuzzyInference.Text.Blank
import FuzzyInference.Text.Digit

/-!
# Numerals

The written form of numbers, read into the exact number meant. No rounding happens here: a numeral
is a count of powers of ten, and each scalar type turns it into a value of its own.
-/

namespace FuzzyInference

inductive Numeral where
  /-- The number `digits * 10 ^ exponent`, or its negative. -/
  | finite (negative : Bool) (digits : Nat) (exponent : Int)
  | infinite (negative : Bool)
  | nan
  deriving Repr, DecidableEq

namespace Numeral

open Text

/-- A blank that may surround a numeral; the information separators may not. -/
def isMargin (c : Char) : Bool := isBlank c && !(0x1C ≤ c.toNat && c.toNat ≤ 0x1F)

/-- The text without the margin at either end. -/
def trimMargin (cs : List Char) : List Char :=
  ((cs.dropWhile isMargin).reverse.dropWhile isMargin).reverse

/-- A sign at the front, true for minus, and what follows. -/
def sign : List Char → Bool × List Char
  | '-' :: rest => (true, rest)
  | '+' :: rest => (false, rest)
  | rest => (false, rest)

/-- The text without a single low line at its front, if a digit follows that. -/
def skipLowLine : List Char → List Char
  | '_' :: c :: rest => if (digitValue? c).isSome then c :: rest else '_' :: c :: rest
  | rest => rest

theorem length_skipLowLine_le (cs : List Char) : (skipLowLine cs).length ≤ cs.length := by
  unfold skipLowLine
  split
  · split <;> simp
  · exact Nat.le_refl _

/-- The values of the digits at the front and what follows them. A single low line between two
digits is skipped. -/
def digitRun : List Char → List Nat × List Char
  | [] => ([], [])
  | c :: rest =>
    match digitValue? c with
    | none => ([], c :: rest)
    | some d =>
      let run := digitRun (skipLowLine rest)
      (d :: run.1, run.2)
termination_by cs => cs.length
decreasing_by exact Nat.lt_succ_of_le (length_skipLowLine_le rest)

/-- The number that a row of decimal digits writes. -/
def ofDigits (digits : List Nat) : Nat := digits.foldl (fun n d => 10 * n + d) 0

/-- The exponent part, which may be missing, up to the end of the text. -/
def exponent? : List Char → Option Int
  | [] => some 0
  | mark :: rest =>
    if mark = 'e' ∨ mark = 'E' then
      match sign rest with
      | (negative, digits) =>
        match digitRun digits with
        | (d :: ds, []) =>
          let n := ofDigits (d :: ds)
          some (if negative then -(n : Int) else n)
        | _ => none
    else none

/-- Digits with an optional point and exponent, up to the end of the text. -/
def decimal? (negative : Bool) (cs : List Char) : Option Numeral :=
  let whole := digitRun cs
  let fraction : List Nat × List Char :=
    match whole.2 with
    | '.' :: rest => digitRun rest
    | rest => ([], rest)
  if whole.1.isEmpty ∧ fraction.1.isEmpty then none
  else
    (exponent? fraction.2).map fun e =>
      .finite negative (ofDigits (whole.1 ++ fraction.1)) (e - fraction.1.length)

/-- The words for the numbers that are not finite, in small letters. -/
def word? (negative : Bool) (cs : List Char) : Option Numeral :=
  if cs = ['i', 'n', 'f'] ∨ cs = ['i', 'n', 'f', 'i', 'n', 'i', 't', 'y'] then
    some (.infinite negative)
  else if cs = ['n', 'a', 'n'] then some .nan
  else none

/-- Reads a numeral: a sign, then digits with a point and an exponent, or a word in any case. -/
def parse? (cs : List Char) : Option Numeral :=
  let (negative, body) := sign (trimMargin cs)
  (word? negative (body.map Char.toLower)).or (decimal? negative body)

/-- The most digits that a whole number may be written with. -/
def digitLimit : Nat := 4300

/-- Reads a whole number: a sign and digits, which may not be too many. -/
def parseInt? (cs : List Char) : Option Int :=
  let (negative, body) := sign (trimMargin cs)
  match digitRun body with
  | (d :: ds, []) =>
    if digitLimit < (d :: ds).length then none
    else
      let n := ofDigits (d :: ds)
      some (if negative then -(n : Int) else n)
  | _ => none

def ofInt (i : Int) : Numeral := .finite (decide (i < 0)) i.natAbs 0

end Numeral

end FuzzyInference
