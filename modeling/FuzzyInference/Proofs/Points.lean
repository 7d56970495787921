import FuzzyInference.Term
import Mathlib.Data.List.Induction

/-!
# Points from left to right

Sorting points loses none, and leaves points alone that stand from left to right already.
-/

namespace FuzzyInference.Point

variable {α : Type} [Scalar α]

/-- No point lies to the left of an earlier one. -/
def Sorted (points : List (Point α)) : Prop := points.Pairwise fun p q => ¬ q.x < p.x

instance (points : List (Point α)) : Decidable (Sorted points) := by
  unfold Sorted
  infer_instance

/-- No abscissa is not-a-number. -/
def Numbered (points : List (Point α)) : Prop := ∀ p ∈ points, Scalar.isNaN p.x = false

theorem insert_perm (p : Point α) (qs : List (Point α)) : (insert p qs).Perm (p :: qs) := by
  induction qs with
  | nil => exact .refl _
  | cons q qs ih =>
    unfold insert
    split
    · exact .refl _
    · exact (ih.cons q).trans (.swap p q qs)

theorem sort_perm (points : List (Point α)) : (sort points).Perm points := by
  induction points using List.reverseRecOn with
  | nil => exact .refl _
  | append_singleton points p ih =>
    rw [sort_append_singleton]
    exact (insert_perm p _).trans ((ih.cons p).trans (List.perm_append_singleton p points).symm)

theorem sort_eq_nil {points : List (Point α)} : sort points = [] ↔ points = [] := by
  rw [← List.length_eq_zero_iff, (sort_perm points).length_eq, List.length_eq_zero_iff]

theorem insert_of_le {p : Point α} {qs : List (Point α)} (h : ∀ q ∈ qs, ¬ p.x < q.x) :
    insert p qs = qs ++ [p] := by
  induction qs with
  | nil => rfl
  | cons q qs ih =>
    obtain ⟨hq, hqs⟩ := List.forall_mem_cons.mp h
    rw [insert, if_neg hq, ih hqs, List.cons_append]

-- Points that stand from left to right keep their places.
theorem Sorted.sort_eq {points : List (Point α)} (h : Sorted points) : sort points = points := by
  induction points using List.reverseRecOn with
  | nil => rfl
  | append_singleton points p ih =>
    obtain ⟨hpoints, -, hlast⟩ := List.pairwise_append.mp h
    rw [sort_append_singleton, ih hpoints]
    exact insert_of_le fun q hq => hlast q hq p (List.mem_singleton_self p)

end FuzzyInference.Point
