import FuzzyInference.Proofs.Equivalence

/-!
# Segments found by bisection

Bisection stops between an abscissa that is below the value and one that is not.  Such a segment has
a width, so that a degree never divides by zero, and both kinds of division give the same degrees.
-/

namespace FuzzyInference

/-- The laws of comparison and subtraction that bisection rests on.  None of them is about values
that are not numbers. -/
class Scalar.Ordered (α : Type) [Scalar α] : Prop where
  lt_of_not_le {a b : α} : isNaN a = false → isNaN b = false → ¬ b ≤ a → a < b
  le_of_lt {a b : α} : a < b → a ≤ b
  sub_ne_zero {a b x : α} : isNaN b = false → a < x → ¬ b < x → (b - a == 0) = false

instance : Scalar.Ordered Rat where
  lt_of_not_le _ _ h := not_le.mp h
  le_of_lt h := h.le
  sub_ne_zero _ ha hb := by
    rw [beq_eq_false_iff_ne]
    exact sub_ne_zero.mpr (lt_of_lt_of_le ha (not_lt.mp hb)).ne'

variable {α : Type} [Scalar α] {points : List (Point α)} {x : α}

namespace Point

/-- The place lies behind a point that is below `x`, or behind no point at all. -/
def Above (points : List (Point α)) (x : α) (place : Nat) : Prop :=
  ∀ i, place = i + 1 → ∃ p, points[i]? = some p ∧ p.x < x

/-- The place is that of a point that is not below `x`, or of no point at all. -/
def Below (points : List (Point α)) (x : α) (place : Nat) : Prop :=
  ∀ p, points[place]? = some p → ¬ p.x < x

-- Every step keeps both ends of the interval where they belong.
theorem bisect_between {low high : Nat} (hle : low ≤ high) (hlength : high ≤ points.length)
    (hlow : Above points x low) (hhigh : Below points x high) :
    Above points x (bisect points x low high) ∧ Below points x (bisect points x low high) := by
  fun_induction bisect points x low high with
  | case1 low high hlt middle p hp hbelow ih =>
    apply ih (by omega) hlength _ hhigh
    intro i hi
    exact ⟨p, by rw [← Nat.succ.inj hi, hp], hbelow⟩
  | case2 low high hlt middle p hp hbelow ih =>
    apply ih (by omega) (by omega) hlow
    intro q hq
    rw [← Option.some.inj (hp.symm.trans hq)]
    exact hbelow
  | case3 low high hlt middle hnone =>
    have houtside := List.getElem?_eq_none_iff.mp hnone
    omega
  | case4 low high hge =>
    obtain rfl : low = high := by omega
    exact ⟨hlow, hhigh⟩

theorem bisect_all (points : List (Point α)) (x : α) :
    Above points x (bisect points x 0 points.length) ∧
      Below points x (bisect points x 0 points.length) := by
  apply bisect_between (Nat.zero_le _) (Nat.le_refl _)
  · intro i hi
    cases hi
  · intro p hp
    rw [List.getElem?_eq_none (Nat.le_refl _)] at hp
    cases hp

theorem height_division {p q : Point α} (h : (q.x - p.x == 0) = false) (division : Division) :
    height division p q x = height .total p q x := by
  simp [height, h]

end Point

/-! ## Degrees at the ends and between them -/

namespace Term

variable {t : Term α} {first : Point α} {rest : List (Point α)}

theorem degree_of_le_first (hpoints : t.points = first :: rest) (hfirst : x ≤ first.x)
    (division : Division) : t.degree division x = .ok first.y := by
  unfold degree
  rw [hpoints]
  exact if_pos hfirst

theorem degree_of_last_le (hpoints : t.points = first :: rest) (hfirst : ¬ x ≤ first.x)
    (hlast : (rest.getLastD first).x ≤ x) (division : Division) :
    t.degree division x = .ok (rest.getLastD first).y := by
  unfold degree
  rw [hpoints]
  exact (if_neg hfirst).trans (if_pos hlast)

-- Between the ends, once the segment is found.
theorem degree_of_segment {p q : Point α} {i : Nat} (hpoints : t.points = first :: rest)
    (hfirst : ¬ x ≤ first.x) (hlast : ¬ (rest.getLastD first).x ≤ x)
    (hplace : Point.bisect (first :: rest) x 0 (first :: rest).length = i + 1)
    (hp : (first :: rest)[i]? = some p) (hq : (first :: rest)[i + 1]? = some q)
    (division : Division) : t.degree division x = Point.height division p q x := by
  unfold degree
  rw [hpoints]
  simp only [if_neg hfirst, if_neg hlast]
  rw [hplace, if_neg (Nat.succ_ne_zero i), Nat.add_sub_cancel, List.getD_eq_getElem?_getD, hp,
    List.getD_eq_getElem?_getD, hq, Option.getD_some, Option.getD_some]

end Term

variable [Scalar.Ordered α]

open Scalar (isNaN)

/-- Between the ends, bisection stops behind the first of two neighbours, the left one of which is
below the value and the right one is not. -/
theorem Point.exists_segment {first : Point α} {rest : List (Point α)} (hfirst : first.x < x)
    (hlast : ¬ (rest.getLastD first).x ≤ x) :
    ∃ i p q, bisect (first :: rest) x 0 (first :: rest).length = i + 1 ∧
      (first :: rest)[i]? = some p ∧ (first :: rest)[i + 1]? = some q ∧ p.x < x ∧ ¬ q.x < x := by
  obtain ⟨habove, hbelow⟩ := bisect_all (first :: rest) x
  generalize bisect (first :: rest) x 0 (first :: rest).length = place at habove hbelow ⊢
  cases place with
  | zero => exact absurd hfirst (hbelow first rfl)
  | succ i =>
    obtain ⟨p, hp, hpx⟩ := habove i rfl
    cases hright : (first :: rest)[i + 1]? with
    | none =>
      -- the point to the left would be the last one
      have hlength := List.getElem?_eq_none_iff.mp hright
      have hi := (List.getElem?_eq_some_iff.mp hp).1
      have hend : i = (first :: rest).length - 1 := by omega
      rw [hend, ← List.getLast?_eq_getElem?, List.getLast?_cons] at hp
      rw [← Option.some.inj hp, ← List.getLastD_eq_getLast?] at hpx
      exact absurd (Scalar.Ordered.le_of_lt hpx) hlast
    | some q => exact ⟨i, p, q, rfl, hp, hright, hpx, hbelow q hright⟩

/-- A degree is the height of a point of the term, or it is read off a segment between two points,
the first of which is below the value and the second is not. -/
theorem Term.degree_cases {t : Term α} (hpoints : ∀ p ∈ t.points, isNaN p.x = false)
    (hx : isNaN x = false) :
    t.points = [] ∨ (∃ p ∈ t.points, ∀ division, t.degree division x = .ok p.y) ∨
      ∃ p ∈ t.points, ∃ q ∈ t.points, p.x < x ∧ ¬ q.x < x ∧
        ∀ division, t.degree division x = Point.height division p q x := by
  cases hlist : t.points with
  | nil => exact .inl rfl
  | cons first rest =>
    refine .inr ?_
    rw [hlist] at hpoints
    by_cases hfirst : x ≤ first.x
    · exact .inl ⟨first, List.mem_cons_self, degree_of_le_first hlist hfirst⟩
    · by_cases hlast : (rest.getLastD first).x ≤ x
      · exact .inl ⟨_, List.getLastD_mem_cons, degree_of_last_le hlist hfirst hlast⟩
      · have hfirst_lt : first.x < x :=
          Scalar.Ordered.lt_of_not_le (hpoints first List.mem_cons_self) hx hfirst
        obtain ⟨i, p, q, hplace, hp, hq, hpx, hqx⟩ := Point.exists_segment hfirst_lt hlast
        exact .inr ⟨p, List.mem_of_getElem? hp, q, List.mem_of_getElem? hq, hpx, hqx,
          degree_of_segment hlist hfirst hlast hplace hp hq⟩

/-- Where every number is one, a degree does not depend on what a division by zero does. -/
theorem Term.degree_division {t : Term α} (hpoints : ∀ p ∈ t.points, isNaN p.x = false)
    (hx : isNaN x = false) (division : Division) : t.degree division x = t.degree .total x := by
  rcases degree_cases hpoints hx with hnil | ⟨p, -, hdegree⟩ | ⟨p, -, q, hq, hpx, hqx, hdegree⟩
  · unfold degree
    rw [hnil]
  · rw [hdegree, hdegree]
  · rw [hdegree, hdegree]
    exact Point.height_division (Scalar.Ordered.sub_ne_zero (hpoints q hq) hpx hqx) division

theorem Term.fuzzify_division {t : Term α} (hpoints : ∀ p ∈ t.points, isNaN p.x = false)
    (hx : isNaN x = false) (division : Division) : t.fuzzify division x = t.fuzzify .total x := by
  unfold fuzzify
  rw [degree_division hpoints hx division]

end FuzzyInference
