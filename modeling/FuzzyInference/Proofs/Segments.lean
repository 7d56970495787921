import FuzzyInference.Proofs.Degrees
import FuzzyInference.Proofs.Points

/-!
# Terms as polylines

Over the rationals a degree is the height of the polyline through the points of the term.  Points
above each other are no obstacle: the segment that is found has a width, and it ends in the first of
them.
-/

namespace FuzzyInference

variable {points : List (Point Rat)} {p q : Point Rat}

-- Points that come earlier are not to the right.
theorem Point.Sorted.le_of_lt (hsorted : Sorted points) {i j : Nat} (hij : i < j)
    (hp : points[i]? = some p) (hq : points[j]? = some q) : p.x ≤ q.x := by
  obtain ⟨hi, rfl⟩ := List.getElem?_eq_some_iff.mp hp
  obtain ⟨hj, rfl⟩ := List.getElem?_eq_some_iff.mp hq
  exact not_lt.mp (List.pairwise_iff_getElem.mp hsorted i j hi hj hij)

-- A segment that ends where there is a point ends in the first point that is there.
theorem Point.Sorted.place_of_first (hsorted : Sorted points) {x : Rat} {i k : Nat} {v : Point Rat}
    (hp : points[i]? = some p) (hq : points[i + 1]? = some q) (hpx : p.x < x) (hqx : x ≤ q.x)
    (hv : points[k]? = some v) (hvx : v.x = x)
    (hfirst : ∀ j < k, ∀ w : Point Rat, points[j]? = some w → w.x ≠ x) : k = i + 1 := by
  rcases Nat.lt_trichotomy k (i + 1) with hlt | heq | hgt
  · have hle : v.x ≤ p.x := by
      rcases Nat.lt_succ_iff_lt_or_eq.mp hlt with hlt | rfl
      · exact hsorted.le_of_lt hlt hv hp
      · rw [Option.some.inj (hv.symm.trans hp)]
    exact absurd (hvx ▸ hle) (not_le.mpr hpx)
  · exact heq
  · -- the end of the segment would be above the place as well
    have hle : q.x ≤ x := hvx ▸ hsorted.le_of_lt hgt hq hv
    exact absurd (le_antisymm hle hqx) (hfirst (i + 1) hgt q hq)

-- A segment is behind no place that an earlier segment holds.
theorem Point.Sorted.not_lt_of_segments (hsorted : Sorted points) {x : Rat} {i j : Nat}
    (hq : points[i + 1]? = some q) (hqx : x ≤ q.x) (hp : points[j]? = some p) (hpx : p.x < x) :
    ¬ i < j := by
  intro hij
  have hle : q.x ≤ p.x := by
    rcases Nat.lt_or_eq_of_le (Nat.succ_le_of_lt hij) with hlt | rfl
    · exact hsorted.le_of_lt hlt hq hp
    · rw [Option.some.inj (hq.symm.trans hp)]
  exact absurd (hqx.trans hle) (not_le.mpr hpx)

/-- Between two neighbouring points a degree is read off the segment through them. -/
theorem Term.degree_of_neighbours {t : Term Rat} {first : Point Rat} {rest : List (Point Rat)}
    (hpoints : t.points = first :: rest) (hsorted : Point.Sorted t.points) {x : Rat}
    (hfirst : first.x < x) (hlast : x < (rest.getLastD first).x) {i : Nat}
    (hp : t.points[i]? = some p) (hq : t.points[i + 1]? = some q) (hpx : p.x < x) (hqx : x ≤ q.x)
    (division : Division) :
    t.degree division x = .ok (p.y + (q.y - p.y) * (x - p.x) / (q.x - p.x)) := by
  rw [hpoints] at hsorted hp hq
  obtain ⟨j, p', q', hplace, hp', hq', hpx', hqx'⟩ :=
    Point.exists_segment hfirst (not_le.mpr hlast)
  -- bisection has found the same segment
  have hij := hsorted.not_lt_of_segments hq hqx hp' hpx'
  have hji := hsorted.not_lt_of_segments hq' (not_lt.mp hqx') hp hpx
  obtain rfl : j = i := by omega
  rw [degree_of_segment hpoints (not_le.mpr hfirst) (not_le.mpr hlast) hplace hp hq,
    Point.height_eq_ok hpx hqx]

/-- The degrees of a term whose points are sorted: flat outside its ends, and between them read off
the segment that bisection finds.  Where points are above each other the first of them counts. -/
theorem Term.degree_polyline {t : Term Rat} {first : Point Rat} {rest : List (Point Rat)}
    (hpoints : t.points = first :: rest) (hsorted : Point.Sorted t.points) (division : Division)
    (x : Rat) :
    let last := rest.getLastD first
    let i := Point.bisect t.points x 0 t.points.length
    (x ≤ first.x → t.degree division x = .ok first.y) ∧
    (first.x < x → last.x ≤ x → t.degree division x = .ok last.y) ∧
    (first.x < x → x < last.x → 1 ≤ i ∧ i < t.points.length ∧
      ∃ p q, t.points[i - 1]? = some p ∧ t.points[i]? = some q ∧ p.x < x ∧ x ≤ q.x ∧
        0 < q.x - p.x ∧ ∃ y ∈ Set.uIcc p.y q.y,
          y = p.y + (q.y - p.y) * (x - p.x) / (q.x - p.x) ∧ t.degree division x = .ok y) ∧
    (first.x < x → x < last.x → ∀ (k : Nat) (v : Point Rat), t.points[k]? = some v → v.x = x →
      (∀ j < k, ∀ w : Point Rat, t.points[j]? = some w → w.x ≠ x) →
        t.degree division x = .ok v.y) := by
  intro last i
  have hsegment (hfirst : first.x < x) (hlast : x < last.x) : ∃ j p q, i = j + 1 ∧
      t.points[j]? = some p ∧ t.points[j + 1]? = some q ∧ p.x < x ∧ x ≤ q.x ∧
      t.degree division x = .ok (p.y + (q.y - p.y) * (x - p.x) / (q.x - p.x)) := by
    obtain ⟨j, p, q, hplace, hp, hq, hpx, hqx⟩ := Point.exists_segment hfirst (not_le.mpr hlast)
    have hdegree := degree_of_segment hpoints (not_le.mpr hfirst) (not_le.mpr hlast) hplace hp hq
      division
    rw [Point.height_eq_ok hpx (not_lt.mp hqx)] at hdegree
    rw [← hpoints] at hplace hp hq
    exact ⟨j, p, q, hplace, hp, hq, hpx, not_lt.mp hqx, hdegree⟩
  refine ⟨fun hfirst => degree_of_le_first hpoints hfirst division,
    fun hfirst hlast => degree_of_last_le hpoints (not_le.mpr hfirst) hlast division, ?_, ?_⟩
  · intro hfirst hlast
    obtain ⟨j, p, q, hplace, hp, hq, hpx, hqx, hdegree⟩ := hsegment hfirst hlast
    rw [hplace]
    exact ⟨Nat.le_add_left 1 j, (List.getElem?_eq_some_iff.mp hq).1, p, q, hp, hq, hpx, hqx,
      sub_pos.mpr (hpx.trans_le hqx), _, Point.line_mem hpx hqx, rfl, hdegree⟩
  · intro hfirst hlast k v hv hvx hnone
    obtain ⟨j, p, q, -, hp, hq, hpx, hqx, hdegree⟩ := hsegment hfirst hlast
    obtain rfl := hsorted.place_of_first hp hq hpx hqx hv hvx hnone
    obtain rfl := Option.some.inj (hq.symm.trans hv)
    have hwidth : x - p.x ≠ 0 := (sub_pos.mpr hpx).ne'
    rw [hdegree, hvx, mul_div_cancel_right₀ _ hwidth, add_sub_cancel]

/-- A term that rises, jumps and falls. -/
def risingStep : Term Rat := ⟨"step", [⟨0, 0⟩, ⟨1, 1 / 2⟩, ⟨1, 1⟩, ⟨3, 0⟩], 0, [0]⟩

theorem Term.degree_polyline_step :
    Point.Sorted risingStep.points ∧ risingStep.degree .checked (-1) = .ok 0 ∧
    risingStep.degree .checked 4 = .ok 0 ∧ risingStep.degree .checked 1 = .ok (1 / 2) ∧
    1 ≤ Point.bisect risingStep.points 2 0 4 ∧ Point.bisect risingStep.points 2 0 4 < 4 ∧
    ∃ y, risingStep.degree .checked 2 = .ok y := by
  have hsorted : Point.Sorted risingStep.points := by decide
  obtain ⟨hbefore, -, -, -⟩ := degree_polyline rfl hsorted .checked (-1)
  obtain ⟨-, hbehind, -, -⟩ := degree_polyline rfl hsorted .checked 4
  obtain ⟨-, -, -, hvertex⟩ := degree_polyline rfl hsorted .checked 1
  obtain ⟨-, -, hbetween, -⟩ := degree_polyline rfl hsorted .checked 2
  obtain ⟨hlow, hhigh, p, q, -, -, -, -, -, y, -, -, hdegree⟩ :=
    hbetween (by decide) (by decide)
  have hnone : ∀ j < 1, ∀ w : Point Rat, risingStep.points[j]? = some w → w.x ≠ 1 := by
    intro j hj w hw
    obtain rfl : j = 0 := by omega
    rw [← Option.some.inj hw]
    decide
  exact ⟨hsorted, hbefore (by decide), hbehind (by decide) (by decide),
    hvertex (by decide) (by decide) 1 ⟨1, 1 / 2⟩ rfl rfl hnone, hlow, hhigh, y, hdegree⟩

end FuzzyInference
