import FuzzyInference.Fcl.ConditionReader

/-!
# The grammar of conditions

Which tokens stand for which condition, said without a reader. A condition has three ranks: a factor
is a condition in brackets or a comparison, a conjunction is factors joined by `AND`, and a
disjunction is conjunctions joined by `OR`. Both joints group to the left.
-/

namespace FuzzyInference.Fcl

variable {α : Type}

/-- How tightly a condition holds together. -/
inductive Rank where
  | factor
  | conjunction
  | disjunction
  deriving Repr, DecidableEq

/-- The tokens of a comparison. -/
def comparisonTokens (name : List String) (negated : Bool) (term : List String) : List Token :=
  name.map .word ++ .word "IS" :: (if negated then [.word "NOT"] else []) ++ term.map .word

/-- Words that can name a variable in a comparison. -/
def CanNameVariable (words : List String) : Prop :=
  words ≠ [] ∧ ∀ w ∈ words, w ≠ "AND" ∧ w ≠ "OR" ∧ w ≠ "IS"

/-- Words that can name a term in a comparison: behind `IS`, a first word `NOT` is the negation. -/
def CanNameTerm (negated : Bool) (words : List String) : Prop :=
  words ≠ [] ∧ (∀ w ∈ words, w ≠ "AND" ∧ w ≠ "OR") ∧ (negated = false → words.head? ≠ some "NOT")

/-- The tokens of a rank stand for a condition on the input variables. -/
inductive Derives (inputs : List (Variable α)) : Rank → List Token → Condition → Prop where
  | comparison {name term : List String} {negated : Bool} {v : Variable α} {i : Nat} :
    CanNameVariable name → CanNameTerm negated term →
    inputs.find? (·.name == joined name) = some v → v.termIndex? (joined term) = some i →
    Derives inputs .factor (comparisonTokens name negated term) (.is ⟨joined name, i, negated⟩)
  | brackets {tokens : List Token} {c : Condition} :
    Derives inputs .disjunction tokens c →
    Derives inputs .factor (.opening :: tokens ++ [.closing]) c
  | oneFactor {tokens : List Token} {c : Condition} :
    Derives inputs .factor tokens c → Derives inputs .conjunction tokens c
  | and {left right : List Token} {c d : Condition} :
    Derives inputs .conjunction left c → Derives inputs .factor right d →
    Derives inputs .conjunction (left ++ .word "AND" :: right) (.and c d)
  | oneConjunction {tokens : List Token} {c : Condition} :
    Derives inputs .conjunction tokens c → Derives inputs .disjunction tokens c
  | or {left right : List Token} {c d : Condition} :
    Derives inputs .disjunction left c → Derives inputs .conjunction right d →
    Derives inputs .disjunction (left ++ .word "OR" :: right) (.or c d)

end FuzzyInference.Fcl
