import FuzzyInference.NormPair
import FuzzyInference.Variable

/-!
# Conditions

The left side of a rule: comparisons of variables with terms, joined by conjunction and disjunction.
The strength of a condition is computed from the degrees that the terms were last given. Two
conditions are equivalent when they differ only in the order of the operands of their joints.
-/

namespace FuzzyInference

/-- The comparison of a variable with a term, which is given by its index. -/
structure Comparison where
  name : String
  term : Int
  negated : Bool
  deriving Repr, DecidableEq

/-- Comparisons joined by conjunction and disjunction. -/
inductive Condition where
  | is (comparison : Comparison)
  | and (left right : Condition)
  | or (left right : Condition)
  deriving Repr, DecidableEq

def flagText (b : Bool) : String := if b then "True" else "False"

def Comparison.text (c : Comparison) : String :=
  "SubCondition(variable=" ++ Text.quoted c.name ++ ", term_index=" ++ toString c.term ++
    ", negated=" ++ flagText c.negated ++ ")"

namespace Condition

def text : Condition → String
  | .is c => c.text
  | .and l r => "And(left=" ++ l.text ++ ", right=" ++ r.text ++ ")"
  | .or l r => "Or(left=" ++ l.text ++ ", right=" ++ r.text ++ ")"

def leaves : Condition → List Comparison
  | .is c => [c]
  | .and l r => l.leaves ++ r.leaves
  | .or l r => l.leaves ++ r.leaves

/-- The opposite of a single comparison. Joined conditions have none. -/
def negate : Condition → Except Fault Condition
  | .is c => .ok (.is { c with negated := !c.negated })
  | .and _ _ => .error .notNegatable
  | .or _ _ => .error .notNegatable

/-- Equality up to the order of operands, at every joint. -/
def equivalent : Condition → Condition → Bool
  | .is c, .is d => c == d
  | .and l r, .and l' r' =>
    (equivalent l l' && equivalent r r') || (equivalent l r' && equivalent r l')
  | .or l r, .or l' r' =>
    (equivalent l l' && equivalent r r') || (equivalent l r' && equivalent r l')
  | _, _ => false

/-- A value of `κ` for a condition, from one for each comparison and from what joints do with the
values of their operands. Equivalent operands count once. If `pair` does not look at the order of
its operands, equivalent conditions get one value. -/
def digest {κ : Type} (leaf : Comparison → κ) (single : Bool → κ → κ) (pair : Bool → κ → κ → κ) :
    Condition → κ
  | .is c => leaf c
  | .and l r =>
    if equivalent l r then single true (l.digest leaf single pair)
    else pair true (l.digest leaf single pair) (r.digest leaf single pair)
  | .or l r =>
    if equivalent l r then single false (l.digest leaf single pair)
    else pair false (l.digest leaf single pair) (r.digest leaf single pair)

def hashLeaf (c : Comparison) : UInt64 :=
  mixHash (hash c.name) (mixHash (hash c.term) (hash c.negated))

/-- A hash that is the same for equivalent conditions. -/
def hashCode (c : Condition) : UInt64 :=
  c.digest hashLeaf (fun kind a => mixHash (hash kind) a)
    (fun kind a b => mixHash (hash kind) (a + b + a * b))

variable {α : Type} [Scalar α]

/-- The degree that a comparison takes from the terms of the inputs. -/
def degree (inputs : List (Variable α)) (c : Comparison) : Except Fault α :=
  match inputs.find? (·.name == c.name) with
  | none => .error (.misconfigured (.unknownInConditions c.name))
  | some v => (v.term c.term).map fun t => if c.negated then complement t.dom else t.dom

/-- The strength of a condition. The left operand of a joint is computed first. -/
def strength (inputs : List (Variable α)) (pair : NormPair) : Condition → Except Fault α
  | .is c => degree inputs c
  | .and l r => do
    let a ← l.strength inputs pair
    let b ← r.strength inputs pair
    return pair.conjunction a b
  | .or l r => do
    let a ← l.strength inputs pair
    let b ← r.strength inputs pair
    return pair.disjunction a b

end Condition

/-- The comparison of a variable with the first term of a name. -/
def Variable.comparison {α : Type} (v : Variable α) (owner term : String) (negated : Bool) :
    Except Fault Condition :=
  match v.termIndex? term with
  | some i => .ok (.is ⟨v.name, i, negated⟩)
  | none => .error (.unknownTerm term owner)

/-- The first item of each class of equal ones, in the order in which the classes appear. -/
def firstOfEach {β : Type} (same : β → β → Bool) (items : List β) : List β :=
  items.foldl (fun kept b => if kept.any (same · b) then kept else kept ++ [b]) []

end FuzzyInference
