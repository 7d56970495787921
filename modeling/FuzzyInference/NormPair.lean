import FuzzyInference.Choice

/-!
# Norm pairs

A fuzzy conjunction together with the disjunction that is dual to it. Choosing either of the two
chooses the pair.
-/

namespace FuzzyInference

/-- A fuzzy conjunction and its disjunction. -/
inductive NormPair where
  /-- Smaller and larger value. -/
  | minMax
  /-- Product and algebraic sum. -/
  | probability
  /-- Bounded difference and bounded sum. -/
  | lukasiewicz
  deriving Repr, DecidableEq

namespace NormPair

def andLabel : NormPair → String
  | .minMax => "MIN"
  | .probability => "PROD"
  | .lukasiewicz => "BDIF"

def orLabel : NormPair → String
  | .minMax => "MAX"
  | .probability => "ASUM"
  | .lukasiewicz => "BSUM"

/-- The pairs in the order in which they are offered. -/
def all : List NormPair := [.minMax, .probability, .lukasiewicz]

/-- The name of a pair with the labels of its operations. -/
def text (pair : NormPair) : String :=
  let name := match pair with
    | .minMax => "MinMaxNorm"
    | .probability => "ProbabilityNorm"
    | .lukasiewicz => "LukasiewiczNorm"
  name ++ "(AND=" ++ pair.andLabel ++ ", OR=" ++ pair.orLabel ++ ")"

variable {α : Type} [Scalar α]

def conjunction : NormPair → α → α → α
  | .minMax, a, b => Scalar.minimum a b
  | .probability, a, b => a * b
  | .lukasiewicz, a, b => Scalar.maximum 0 (a + b - 1)

def disjunction : NormPair → α → α → α
  | .minMax, a, b => Scalar.maximum a b
  | .probability, a, b => a + b - a * b
  | .lukasiewicz, a, b => Scalar.minimum 1 (a + b)

end NormPair

/-- The complement of a degree, which is the same for every pair. -/
def complement {α : Type} [Scalar α] (a : α) : α := 1 - a

def Choice.andOperator : Choice NormPair := ofLabelled "and_operator" NormPair.andLabel NormPair.all

def Choice.orOperator : Choice NormPair := ofLabelled "or_operator" NormPair.orLabel NormPair.all

end FuzzyInference
