import FuzzyInference.Proofs.Bisection
import FuzzyInference.Proofs.Points
import FuzzyInference.Proofs.SignedZeros
import FuzzyInference.Scalar.Samples
import FuzzyInference.Shape

/-!
# Shapes drawn at many places at once

The heights of the whole shape of a term are its degrees, at vertices and at vertical steps, too.
The only exception is a term that is a single step: where all points are above each other, the shape
has the height of the last one, and the degree is the height of the first.
-/

namespace FuzzyInference

open Scalar (isNaN Ordered Ranked)
open Scalar.Ranked (rank)

variable {α : Type} [Scalar α] [Ordered α] [Ranked α] {points : List (Point α)} {p q : Point α}
  {x : α}

/-! ## Points from left to right -/

namespace Point

omit [Ordered α] in
-- Bisection counts the points that are below the value.
theorem length_takeWhile_of_segment (hsorted : Sorted points) (hnumbers : Numbered points) {i : Nat}
    (hp : points[i]? = some p) (hq : points[i + 1]? = some q) (hpx : p.x < x) (hqx : ¬ q.x < x) :
    (points.takeWhile fun v => decide (v.x < x)).length = i + 1 := by
  obtain ⟨hi, rfl⟩ := List.getElem?_eq_some_iff.mp hp
  obtain ⟨hnext, rfl⟩ := List.getElem?_eq_some_iff.mp hq
  have hbefore : ∀ v ∈ points.take (i + 1), decide (v.x < x) = true := by
    intro v hv
    obtain ⟨j, hj, rfl⟩ := List.mem_take_iff_getElem.mp hv
    have hji : j ≤ i := by omega
    rw [decide_eq_true_iff]
    rcases Nat.lt_or_eq_of_le hji with hlt | rfl
    · exact Scalar.lt_of_not_lt_of_lt (hnumbers _ (List.getElem_mem _))
        (List.pairwise_iff_getElem.mp hsorted j i _ hi hlt) hpx
    · exact hpx
  have hsplit : points = points.take (i + 1) ++ points[i + 1] :: points.drop (i + 2) := by
    rw [← List.drop_eq_getElem_cons hnext, List.take_append_drop]
  rw [hsplit, List.takeWhile_append_of_pos hbefore, List.takeWhile_cons_of_neg (by simpa using hqx),
    List.append_nil, List.length_take]
  omega

omit [Ordered α] in
-- No point lies outside the ends.
theorem Sorted.not_lt_ends {first : Point α} {rest : List (Point α)}
    (hsorted : Sorted (first :: rest)) (hp : p ∈ first :: rest) :
    ¬ p.x < first.x ∧ ¬ (rest.getLastD first).x < p.x := by
  constructor
  · rcases List.mem_cons.mp hp with rfl | hp
    · exact Scalar.not_lt_self p.x
    · exact (List.pairwise_cons.mp hsorted).1 p hp
  · have hlast : (first :: rest).getLast (List.cons_ne_nil _ _) = rest.getLastD first := by
      rw [List.getLast_eq_getLastD]
    rw [← List.dropLast_append_getLast (List.cons_ne_nil first rest), hlast] at hsorted hp
    rcases List.mem_append.mp hp with hp | hp
    · exact (List.pairwise_append.mp hsorted).2.2 p hp _ (List.mem_singleton_self _)
    · rw [List.mem_singleton.mp hp]
      exact Scalar.not_lt_self _

end Point

/-! ## Terms -/

namespace Term

/-- The term is a step at `x`: it has several points, and all of them are there. -/
def Upright (t : Term α) (x : α) : Prop :=
  2 ≤ t.points.length ∧ ∀ p ∈ t.points, (p.x == x) = true

/-- The heights of the shape over given places.  Nothing is written on the way: this is a question
to the term, and the degree that it holds stays as it is. -/
def heights (xs : Samples α) : Action (Term α) (Samples α) :=
  Action.ask fun t => t.curve.map xs.map

variable {t : Term α} {first : Point α} {rest : List (Point α)}

omit [Ordered α] in
-- Only a step both begins and ends at one place.
theorem beq_of_ends (hsorted : Point.Sorted (first :: rest))
    (hnumbers : Point.Numbered (first :: rest)) (hfirst : x ≤ first.x)
    (hlast : (rest.getLastD first).x ≤ x) (hp : p ∈ first :: rest) : (p.x == x) = true := by
  obtain ⟨hlow, hhigh⟩ := hsorted.not_lt_ends hp
  obtain ⟨c, hc⟩ := Scalar.isNaN_eq_false.mp (hnumbers p hp)
  obtain ⟨r, a, hr, ha, hra⟩ := Ranked.le_iff.mp hfirst
  obtain ⟨b, r', hb, hr', hbr⟩ := Ranked.le_iff.mp hlast
  obtain rfl := Option.some.inj (hr.symm.trans hr')
  rw [Scalar.lt_iff_of_ranks hc ha, not_lt] at hlow
  rw [Scalar.lt_iff_of_ranks hb hc, not_lt] at hhigh
  exact Ranked.beq_iff.mpr ⟨r, by rw [hc, le_antisymm (hhigh.trans hbr) (hra.trans hlow)], hr⟩

omit [Ordered α] in
theorem Upright.ends (h : t.Upright x) (hpoints : t.points = first :: rest) :
    x ≤ first.x ∧ (rest.getLastD first).x ≤ x := by
  obtain ⟨-, hall⟩ := h
  rw [hpoints] at hall
  constructor
  · obtain ⟨r, hfirst, hr⟩ := Ranked.beq_iff.mp (hall first List.mem_cons_self)
    exact Ranked.le_iff.mpr ⟨r, r, hr, hfirst, le_rfl⟩
  · obtain ⟨r, hlast, hr⟩ := Ranked.beq_iff.mp (hall _ List.getLastD_mem_cons)
    exact Ranked.le_iff.mpr ⟨r, r, hlast, hr, le_rfl⟩

omit [Ordered α] [Ranked α] in
-- The shape of several points, at its ends and between them.
theorem exists_curve (hpoints : t.points = first :: rest) (hrest : rest ≠ []) :
    ∃ f, t.curve = .ok f ∧ (∀ x, (rest.getLastD first).x ≤ x → f x = (rest.getLastD first).y) ∧
      (∀ x, ¬ (rest.getLastD first).x ≤ x → x ≤ first.x → f x = first.y) ∧
      ∀ x (i : Nat) (p q : Point α), ¬ (rest.getLastD first).x ≤ x → ¬ x ≤ first.x →
        ((first :: rest).takeWhile fun v => decide (v.x < x)).length = i + 1 →
        (first :: rest)[i]? = some p → (first :: rest)[i + 1]? = some q →
        Point.height .total p q x = .ok (f x) := by
  obtain ⟨second, rest, rfl⟩ := List.exists_cons_of_ne_nil hrest
  unfold curve
  rw [hpoints]
  refine ⟨_, rfl, fun x hlast => if_pos hlast, fun x hlast hfirst => ?_, ?_⟩
  · exact (if_neg hlast).trans (if_pos hfirst)
  · intro x i p q hlast hfirst hbefore hp hq
    have hlength := (List.getElem?_eq_some_iff.mp hq).1
    have hplace : min (max (i + 1) 1) ((first :: second :: rest).length - 1) = i + 1 := by omega
    dsimp only
    rw [if_neg hlast, if_neg hfirst, hbefore, hplace, Nat.add_sub_cancel,
      List.getD_eq_getElem?_getD, hp, List.getD_eq_getElem?_getD, hq, Option.getD_some,
      Option.getD_some]
    unfold Point.height
    exact if_neg (by simp)

/-- The heights of the shape are the degrees, except at a step that is the whole term. -/
theorem curve_degree (hpoints : t.points ≠ []) (hsorted : Point.Sorted t.points)
    (hnumbers : Point.Numbered t.points) :
    ∃ f, (∀ xs, heights xs t = ⟨t, [], .ok (xs.map f)⟩) ∧
      ∀ x, isNaN x = false → ∀ division,
        (¬ t.Upright x → t.degree division x = .ok (f x)) ∧
        (t.Upright x → ∃ first last, t.points.head? = some first ∧ t.points.getLast? = some last ∧
          t.degree division x = .ok first.y ∧ f x = last.y) := by
  have hheights {f : α → α} (hcurve : t.curve = .ok f) (xs : Samples α) :
      heights xs t = ⟨t, [], .ok (xs.map f)⟩ := by
    show Outcome.mk t [] (t.curve.map xs.map) = _
    rw [hcurve]
    rfl
  obtain ⟨first, rest, hlist⟩ := List.exists_cons_of_ne_nil hpoints
  by_cases hrest : rest = []
  · -- a single point has one height everywhere
    subst hrest
    refine ⟨fun _ => first.y, hheights (by unfold curve; rw [hlist]), fun x hx division =>
      ⟨fun _ => ?_, fun hup => ?_⟩⟩
    · by_cases hfirst : x ≤ first.x
      · exact degree_of_le_first hlist hfirst division
      · have hnumber := hnumbers first (by rw [hlist]; exact List.mem_cons_self)
        exact degree_of_last_le hlist hfirst
          (Ordered.le_of_lt (Ordered.lt_of_not_le hnumber hx hfirst)) division
    · have htwo := hup.1
      rw [hlist] at htwo
      exact absurd htwo (by simp)
  · obtain ⟨f, hcurve, hlast, hfirst, hbetween⟩ := exists_curve hlist hrest
    refine ⟨f, hheights hcurve, fun x hx division => ⟨fun hup => ?_, fun hup => ?_⟩⟩
    · have hnotboth (hle : x ≤ first.x) : ¬ (rest.getLastD first).x ≤ x := by
        intro hge
        refine hup ⟨?_, fun p hp => ?_⟩
        · rw [hlist, List.length_cons]
          exact Nat.succ_le_succ (List.length_pos_of_ne_nil hrest)
        · rw [hlist] at hp hsorted hnumbers
          exact beq_of_ends hsorted hnumbers hle hge hp
      by_cases hle : x ≤ first.x
      · rw [degree_of_le_first hlist hle, hfirst x (hnotboth hle) hle]
      · by_cases hge : (rest.getLastD first).x ≤ x
        · rw [degree_of_last_le hlist hle hge, hlast x hge]
        · rw [hlist] at hsorted hnumbers
          have hlt := Ordered.lt_of_not_le (hnumbers first List.mem_cons_self) hx hle
          obtain ⟨i, p, q, hplace, hp, hq, hpx, hqx⟩ := Point.exists_segment hlt hge
          have hbefore := Point.length_takeWhile_of_segment hsorted hnumbers hp hq hpx hqx
          have hwidth := Ordered.sub_ne_zero (hnumbers q (List.mem_of_getElem? hq)) hpx hqx
          rw [degree_of_segment hlist hle hge hplace hp hq, Point.height_division hwidth,
            hbetween x i p q hge hle hbefore hp hq]
    · obtain ⟨hle, hge⟩ := hup.ends hlist
      refine ⟨first, rest.getLastD first, by rw [hlist]; rfl, ?_,
        degree_of_le_first hlist hle division, hlast x hge⟩
      rw [hlist, List.getLast?_cons, List.getLastD_eq_getLast?]

/-- A term that falls from one to zero at once. -/
def brink : Term Float := ⟨"low", [⟨1, 1⟩, ⟨1, 0⟩], 0, [0]⟩

/-- A term that rises and falls at once at its end. -/
def saw : Term Float := ⟨"saw", [⟨0, 0⟩, ⟨1, 1⟩, ⟨1, 0⟩], 0, [0]⟩

theorem curve_degree_saw : ∃ f g, (∀ xs, heights xs saw = ⟨saw, [], .ok (xs.map f)⟩) ∧
    saw.degree .checked 1 = .ok (f 1) ∧ (∀ xs, heights xs brink = ⟨brink, [], .ok (xs.map g)⟩) ∧
    g 1 = 0 := by
  have hone : isNaN (1 : Float) = false := by decide +kernel
  have hsteep : ¬ saw.Upright 1 := fun hup =>
    absurd (hup.2 ⟨0, 0⟩ List.mem_cons_self) (by decide +kernel)
  have hall : ∀ p ∈ brink.points, (p.x == 1) = true := by decide +kernel
  obtain ⟨f, hf, hdegrees⟩ := curve_degree (t := saw) (by decide) (by decide +kernel)
    (by unfold Point.Numbered; decide +kernel)
  obtain ⟨g, hg, hsteps⟩ := curve_degree (t := brink) (by decide) (by decide +kernel)
    (by unfold Point.Numbered; decide +kernel)
  obtain ⟨first, last, -, hlast, -, hheight⟩ := (hsteps 1 hone .checked).2 ⟨by decide, hall⟩
  obtain rfl := Option.some.inj hlast
  exact ⟨f, g, hf, (hdegrees 1 hone .checked).1 hsteep, hg, hheight⟩

/-- A shoulder without a slope has full degree where it falls, and its shape has no height there. -/
theorem heights_ne_degree : Shape.leftShoulder "low" 1 1 = .ok brink ∧
    Point.Sorted brink.points ∧ brink.degree .checked 1 = .ok 1 ∧
    heights (.single 1) brink = ⟨brink, [], .ok (.single 0)⟩ ∧ ((1 : Float) == 0) = false := by
  have hself : (1 : Float) ≤ 1 := by decide +kernel
  have hfull : brink.degree .checked 1 = .ok (⟨1, 1⟩ : Point Float).y :=
    degree_of_le_first rfl hself .checked
  refine ⟨?_, by decide +kernel, hfull, ?_, by decide +kernel⟩
  · have hsort : Point.sort brink.points = brink.points := Point.Sorted.sort_eq (by decide +kernel)
    have hterm : ofPoints "low" brink.points = brink := by
      unfold ofPoints
      rw [hsort]
      rfl
    unfold Shape.leftShoulder Shape.checked
    rw [if_pos (decide_eq_true hself)]
    exact congrArg Except.ok hterm
  · show Outcome.mk brink [] (.ok (Samples.single (if (1 : Float) ≤ 1 then (0 : Float) else _))) = _
    rw [if_pos hself]

end Term

end FuzzyInference
