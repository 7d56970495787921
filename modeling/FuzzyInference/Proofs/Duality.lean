import FuzzyInference.Proofs.Equivalence
import FuzzyInference.Proofs.Success
import Mathlib.Algebra.Order.Group.MinMax
import Mathlib.Tactic.Ring

/-!
# Dual conditions

The dual of a condition has a disjunction for each conjunction, a conjunction for each disjunction,
and the opposite of each comparison.  Its strength is the complement of the strength of the
condition, for every norm pair and whatever the degrees of the inputs are.
-/

namespace FuzzyInference

/-! ## Dual operations -/

theorem complement_complement (a : Rat) : complement (complement a) = a := sub_sub_cancel 1 a

namespace NormPair

-- The degrees need not lie between zero and one: the sums are cut off at opposite ends.
theorem disjunction_complement (pair : NormPair) (a b : Rat) :
    pair.disjunction (complement a) (complement b) = complement (pair.conjunction a b) := by
  cases pair with
  | minMax =>
    show Scalar.maximum (1 - a) (1 - b) = 1 - Scalar.minimum a b
    rw [Scalar.maximum_rat, Scalar.minimum_rat, max_sub_sub_left]
  | probability =>
    show 1 - a + (1 - b) - (1 - a) * (1 - b) = 1 - a * b
    ring
  | lukasiewicz =>
    have hcut : 1 - a + (1 - b) = 1 - (a + b - 1) := by ring
    show Scalar.minimum 1 (1 - a + (1 - b)) = 1 - Scalar.maximum 0 (a + b - 1)
    rw [Scalar.minimum_rat, Scalar.maximum_rat, hcut, ← min_sub_sub_left, sub_zero]

theorem conjunction_complement (pair : NormPair) (a b : Rat) :
    pair.conjunction (complement a) (complement b) = complement (pair.disjunction a b) := by
  have hdual := pair.disjunction_complement (complement a) (complement b)
  rw [complement_complement, complement_complement] at hdual
  rw [hdual, complement_complement]

end NormPair

/-! ## Dual trees -/

namespace Condition

/-- Every conjunction is exchanged for a disjunction and every disjunction for a conjunction, and
every comparison for its opposite. -/
def dual : Condition → Condition
  | .is c => .is { c with negated := !c.negated }
  | .and l r => .or l.dual r.dual
  | .or l r => .and l.dual r.dual

theorem dual_dual (c : Condition) : c.dual.dual = c := by
  induction c with
  | is leaf => simp [dual]
  | and l r ihl ihr => rw [dual, dual, ihl, ihr]
  | or l r ihl ihr => rw [dual, dual, ihl, ihr]

variable {inputs : List (Variable Rat)}

theorem degree_opposite (leaf : Comparison) :
    degree inputs { leaf with negated := !leaf.negated } =
      (degree inputs leaf).map complement := by
  unfold degree
  cases inputs.find? (·.name == leaf.name) with
  | none => rfl
  | some v =>
    dsimp only
    cases v.term leaf.term with
    | error f => rfl
    | ok t =>
      cases hnegated : leaf.negated with
      | false => rfl
      | true => exact congrArg Except.ok (complement_complement t.dom).symm

-- A joint of complements, where both operands are computed or neither of them counts.
theorem joint_complement {x y : Except Fault Rat} {f g : Rat → Rat → Rat}
    (hdual : ∀ a b, g (complement a) (complement b) = complement (f a b)) :
    (do let a ← x.map complement; let b ← y.map complement; return g a b) =
      (do let a ← x; let b ← y; return f a b : Except Fault Rat).map complement := by
  cases x with
  | error e => rfl
  | ok a =>
    cases y with
    | error e => rfl
    | ok b => exact congrArg Except.ok (hdual a b)

/-- The strength of the dual is the complement of the strength of the condition, or the same fault.
There is a strength just when each comparison has a degree. -/
theorem strength_dual (c : Condition) (inputs : List (Variable Rat)) (pair : NormPair) :
    c.dual.strength inputs pair = (c.strength inputs pair).map (fun s => 1 - s) ∧
      ((∃ s, c.strength inputs pair = .ok s) ↔
        ∀ leaf ∈ c.leaves, ∃ a, degree inputs leaf = .ok a) := by
  refine ⟨?_, exists_strength_iff⟩
  show c.dual.strength inputs pair = (c.strength inputs pair).map complement
  induction c with
  | is leaf => exact degree_opposite leaf
  | and l r ihl ihr =>
    rw [dual, strength, strength, ihl, ihr]
    exact joint_complement pair.disjunction_complement
  | or l r ihl ihr =>
    rw [dual, strength, strength, ihl, ihr]
    exact joint_complement pair.conjunction_complement

-- Degrees outside of the unit interval: 3 AND (NOT 2 OR 1 / 2) under the bounded pair.
example :
    let x : Variable Rat := ⟨"x",
      [⟨"far", [], 3, []⟩, ⟨"near", [], 2, []⟩, ⟨"here", [], 1 / 2, []⟩]⟩
    let c : Condition :=
      .and (.is ⟨"x", 0, false⟩) (.or (.is ⟨"x", 1, true⟩) (.is ⟨"x", 2, false⟩))
    c.strength [x] .lukasiewicz = .ok (3 / 2) ∧
      c.dual.strength [x] .lukasiewicz = .ok (-1 / 2) := by
  decide +kernel

end Condition

end FuzzyInference
