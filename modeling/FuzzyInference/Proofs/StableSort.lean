import FuzzyInference.Proofs.Points
import FuzzyInference.Proofs.Ranks

/-!
# Sorting is stable

Sorted points stand from left to right, and those above each other stand in the order in which they
were given.
-/

namespace FuzzyInference.Point

open Scalar (Ranked)
open Scalar.Ranked (rank)

variable {α : Type} [Scalar α] {points qs : List (Point α)} {p : Point α}

/-- The given points from left to right; those above each other keep their order. -/
structure StablySorted (given points : List (Point α)) : Prop where
  perm : points.Perm given
  ascending : points.Pairwise fun p q => p.x ≤ q.x
  stable (x : α) : points.filter (·.x == x) = given.filter (·.x == x)

variable [Ranked α]

/-! ## From left to right -/

theorem sorted_insert (h : Sorted qs) : Sorted (insert p qs) := by
  induction qs with
  | nil => exact List.pairwise_singleton _ _
  | cons q qs ih =>
    obtain ⟨hq, hqs⟩ := List.pairwise_cons.mp h
    unfold insert
    split
    · rename_i hlt
      -- what is not to the left of `q` is not to the left of `p`
      refine List.pairwise_cons.mpr ⟨List.forall_mem_cons.mpr ⟨Scalar.not_lt_of_lt hlt, ?_⟩, h⟩
      exact fun r hr hrp => hq r hr (Scalar.lt_of_lt_of_lt hrp hlt)
    · rename_i hle
      refine List.pairwise_cons.mpr ⟨fun r hr => ?_, ih hqs⟩
      rcases List.mem_cons.mp ((insert_perm p qs).mem_iff.mp hr) with rfl | hr
      · exact hle
      · exact hq r hr

theorem sorted_sort (points : List (Point α)) : Sorted (sort points) := by
  induction points using List.reverseRecOn with
  | nil => exact List.Pairwise.nil
  | append_singleton points p ih =>
    rw [sort_append_singleton]
    exact sorted_insert ih

theorem Sorted.ascending (h : Sorted points) (hnumbers : Numbered points) :
    points.Pairwise fun p q => p.x ≤ q.x :=
  h.imp_of_mem fun hp hq hnot => Scalar.le_of_not_lt (hnumbers _ hp) (hnumbers _ hq) hnot

/-! ## Points above each other -/

-- A point goes behind those that have its abscissa.
theorem filter_insert (h : Sorted qs) (p : Point α) (x : α) :
    (insert p qs).filter (·.x == x) = (qs ++ [p]).filter (·.x == x) := by
  induction qs with
  | nil => rfl
  | cons q qs ih =>
    obtain ⟨hq, hqs⟩ := List.pairwise_cons.mp h
    unfold insert
    split
    · rename_i hlt
      by_cases hpx : (p.x == x) = true
      · -- everything from `q` on is to the right of `p`
        have hright : ∀ r ∈ q :: qs, ¬ r.x < q.x :=
          List.forall_mem_cons.mpr ⟨Scalar.not_lt_self q.x, hq⟩
        have hnone : (q :: qs).filter (·.x == x) = [] := by
          refine List.filter_eq_nil_iff.mpr fun r hr hrx => hright r hr ?_
          have hrank : rank r.x = rank p.x :=
            (Scalar.rank_eq_of_beq hrx).trans (Scalar.rank_eq_of_beq hpx).symm
          exact (Scalar.lt_congr hrank rfl).mpr hlt
        rw [← List.singleton_append, List.filter_append, List.filter_append, hnone,
          List.append_nil, List.nil_append]
      · have hnone : [p].filter (·.x == x) = [] := List.filter_cons_of_neg hpx
        rw [← List.singleton_append, List.filter_append, List.filter_append, hnone,
          List.append_nil, List.nil_append]
    · rw [List.cons_append, List.filter_cons, List.filter_cons, ih hqs]

theorem filter_sort (points : List (Point α)) (x : α) :
    (sort points).filter (·.x == x) = points.filter (·.x == x) := by
  induction points using List.reverseRecOn with
  | nil => rfl
  | append_singleton points p ih =>
    rw [sort_append_singleton, filter_insert (sorted_sort points), List.filter_append, ih,
      ← List.filter_append]

theorem stablySorted_sort (h : Numbered points) : StablySorted points (sort points) where
  perm := sort_perm points
  ascending := (sorted_sort points).ascending fun p hp => h p ((sort_perm points).mem_iff.mp hp)
  stable := filter_sort points

end FuzzyInference.Point
