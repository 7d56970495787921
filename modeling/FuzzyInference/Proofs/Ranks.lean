import FuzzyInference.Scalar
import Mathlib.Algebra.Order.Ring.Rat
import Mathlib.Data.Option.NAry

/-!
# Ranks of scalars

A value that is a number has a rank in a linear order, and comparisons see the ranks alone.  Sums,
differences and products of values with the same ranks have the same rank, and so do quotients by
values that are not zero.  Nothing of it tells the two zeros of the doubles apart.
-/

namespace FuzzyInference.Scalar

/-- The values are one number, up to the sign of a zero, or neither is a number. -/
def Same {α : Type} [Scalar α] (a b : α) : Prop :=
  (a == b) = true ∨ isNaN a = true ∧ isNaN b = true

/-- Ranks that the comparisons of a scalar type are decided by.  Not-a-number has none. -/
class Ranked (α : Type) [Scalar α] where
  Rank : Type
  linearOrder : LinearOrder Rank
  rank : α → Option Rank
  lt_iff {a b : α} : a < b ↔ ∃ p q, rank a = some p ∧ rank b = some q ∧ p < q
  le_iff {a b : α} : a ≤ b ↔ ∃ p q, rank a = some p ∧ rank b = some q ∧ p ≤ q
  beq_iff {a b : α} : (a == b) = true ↔ ∃ p, rank a = some p ∧ rank b = some p

attribute [reducible, instance] Ranked.linearOrder

/-- Arithmetic that sees the ranks alone and not the order of summands and factors. -/
class Regular (α : Type) [Scalar α] extends Ranked α where
  rank_add_comm (a b : α) : rank (a + b) = rank (b + a)
  rank_mul_comm (a b : α) : rank (a * b) = rank (b * a)
  rank_add {a a' b b' : α} : rank a = rank a' → rank b = rank b' → rank (a + b) = rank (a' + b')
  rank_sub {a a' b b' : α} : rank a = rank a' → rank b = rank b' → rank (a - b) = rank (a' - b')
  rank_mul {a a' b b' : α} : rank a = rank a' → rank b = rank b' → rank (a * b) = rank (a' * b')
  rank_div {a a' b b' : α} : rank a = rank a' → rank b = rank b' → ¬ b ≤ 0 →
    rank (a / b) = rank (a' / b')

instance : Regular Rat where
  Rank := Rat
  linearOrder := inferInstance
  rank := some
  lt_iff := by simp
  le_iff := by simp
  beq_iff := by
    simp only [beq_iff_eq, Option.some.injEq, exists_eq_left']
    exact eq_comm
  rank_add_comm a b := congrArg some (add_comm a b)
  rank_mul_comm a b := congrArg some (mul_comm a b)
  rank_add ha hb := by rw [Option.some.inj ha, Option.some.inj hb]
  rank_sub ha hb := by rw [Option.some.inj ha, Option.some.inj hb]
  rank_mul ha hb := by rw [Option.some.inj ha, Option.some.inj hb]
  rank_div ha hb _ := by rw [Option.some.inj ha, Option.some.inj hb]

open Ranked (rank Rank)

/-! ## Comparisons -/

section Comparisons

variable {α : Type} [Scalar α] [Ranked α] {a a' b b' c : α}

theorem isNaN_eq_true : isNaN a = true ↔ rank a = none := by
  unfold isNaN
  rw [Bool.not_eq_true', ← Bool.not_eq_true, Ranked.beq_iff]
  cases rank a with
  | none => simp
  | some p => simp

theorem isNaN_eq_false : isNaN a = false ↔ ∃ p, rank a = some p := by
  rw [← Bool.not_eq_true, isNaN_eq_true]
  cases rank a with
  | none => simp
  | some p => simp

theorem same_iff : Same a b ↔ rank a = rank b := by
  unfold Same
  rw [Ranked.beq_iff, isNaN_eq_true, isNaN_eq_true]
  cases rank a <;> cases rank b <;> simp [eq_comm]

theorem lt_congr (ha : rank a = rank a') (hb : rank b = rank b') : a < b ↔ a' < b' := by
  rw [Ranked.lt_iff, Ranked.lt_iff, ha, hb]

theorem le_congr (ha : rank a = rank a') (hb : rank b = rank b') : a ≤ b ↔ a' ≤ b' := by
  rw [Ranked.le_iff, Ranked.le_iff, ha, hb]

theorem lt_iff_of_ranks {p q : Rank α} (ha : rank a = some p) (hb : rank b = some q) :
    a < b ↔ p < q := by
  simp [Ranked.lt_iff, ha, hb]

theorem rank_eq_of_beq (h : (a == b) = true) : rank a = rank b := same_iff.mp (.inl h)

theorem lt_of_lt_of_lt (hab : a < b) (hbc : b < c) : a < c := by
  obtain ⟨p, q, hp, hq, hpq⟩ := Ranked.lt_iff.mp hab
  obtain ⟨q', r, hq', hr, hqr⟩ := Ranked.lt_iff.mp hbc
  obtain rfl := Option.some.inj (hq.symm.trans hq')
  exact (lt_iff_of_ranks hp hr).mpr (hpq.trans hqr)

theorem not_lt_of_lt (hab : a < b) : ¬ b < a := by
  obtain ⟨p, q, hp, hq, hpq⟩ := Ranked.lt_iff.mp hab
  rw [lt_iff_of_ranks hq hp]
  exact hpq.asymm

theorem not_lt_self (a : α) : ¬ a < a := fun h => not_lt_of_lt h h

theorem le_of_not_lt (ha : isNaN a = false) (hb : isNaN b = false) (h : ¬ b < a) : a ≤ b := by
  obtain ⟨p, hp⟩ := isNaN_eq_false.mp ha
  obtain ⟨q, hq⟩ := isNaN_eq_false.mp hb
  rw [lt_iff_of_ranks hq hp] at h
  exact Ranked.le_iff.mpr ⟨p, q, hp, hq, not_lt.mp h⟩

/-- A number that is not above another one is below everything that the other one is below. -/
theorem lt_of_not_lt_of_lt (ha : isNaN a = false) (h : ¬ b < a) (hbc : b < c) : a < c := by
  obtain ⟨p, hp⟩ := isNaN_eq_false.mp ha
  obtain ⟨q, r, hq, hr, hqr⟩ := Ranked.lt_iff.mp hbc
  rw [lt_iff_of_ranks hq hp] at h
  exact (lt_iff_of_ranks hp hr).mpr ((not_lt.mp h).trans_lt hqr)

-- Not-a-number on either side wins.
theorem rank_choice {f : Rank α → Rank α → Rank α}
    (h : ∀ p q, rank a = some p → rank b = some q → rank c = some (f p q)) :
    rank (if isNaN a then a else if isNaN b then b else c) =
      Option.map₂ f (rank a) (rank b) := by
  cases ha : rank a with
  | none => rw [if_pos (isNaN_eq_true.mpr ha), ha, Option.map₂_none_left]
  | some p =>
    rw [if_neg (by rw [isNaN_eq_true, ha]; simp)]
    cases hb : rank b with
    | none => rw [if_pos (isNaN_eq_true.mpr hb), hb, Option.map₂_none_right]
    | some q => rw [if_neg (by rw [isNaN_eq_true, hb]; simp), h p q ha hb, Option.map₂_some_some]

theorem rank_minimum (a b : α) : rank (minimum a b) = Option.map₂ min (rank a) (rank b) := by
  apply rank_choice
  intro p q ha hb
  simp only [lt_iff_of_ranks ha hb]
  by_cases h : p < q
  · rw [if_pos h, ha, min_eq_left h.le]
  · rw [if_neg h, hb, min_eq_right (not_lt.mp h)]

theorem rank_maximum (a b : α) : rank (maximum a b) = Option.map₂ max (rank a) (rank b) := by
  apply rank_choice
  intro p q ha hb
  simp only [lt_iff_of_ranks hb ha]
  by_cases h : q < p
  · rw [if_pos h, ha, max_eq_left h.le]
  · rw [if_neg h, hb, max_eq_right (not_lt.mp h)]

end Comparisons

end FuzzyInference.Scalar
