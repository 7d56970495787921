import FuzzyInference.Proofs.Averages
import FuzzyInference.Proofs.Bisection
import FuzzyInference.Proofs.WellFormed

/-!
# Degrees between zero and one

Interpolation, complements, the joints of conditions, weights, activation and accumulation all lead
from numbers between zero and one to such numbers.
-/

namespace FuzzyInference

/-- A number between zero and one. -/
def IsDegree (a : Rat) : Prop := a ∈ Set.Icc 0 1

instance : DecidablePred IsDegree := fun a => inferInstanceAs (Decidable (0 ≤ a ∧ a ≤ 1))

variable {a b : Rat}

theorem isDegree_zero : IsDegree 0 := ⟨le_rfl, zero_le_one⟩

theorem IsDegree.mul (ha : IsDegree a) (hb : IsDegree b) : IsDegree (a * b) :=
  ⟨mul_nonneg ha.1 hb.1, mul_le_one₀ ha.2 hb.1 hb.2⟩

theorem IsDegree.minimum (ha : IsDegree a) (hb : IsDegree b) : IsDegree (Scalar.minimum a b) := by
  rw [Scalar.minimum_rat]
  exact ⟨le_min ha.1 hb.1, (min_le_left a b).trans ha.2⟩

theorem IsDegree.maximum (ha : IsDegree a) (hb : IsDegree b) : IsDegree (Scalar.maximum a b) := by
  rw [Scalar.maximum_rat]
  exact ⟨ha.1.trans (le_max_left a b), max_le ha.2 hb.2⟩

/-- A sum that is cut off at one. -/
theorem isDegree_boundedSum (ha : IsDegree a) (hb : IsDegree b) :
    IsDegree (Scalar.minimum 1 (a + b)) := by
  rw [Scalar.minimum_rat]
  exact ⟨le_min zero_le_one (add_nonneg ha.1 hb.1), min_le_left 1 (a + b)⟩

theorem IsDegree.complement (ha : IsDegree a) : IsDegree (complement a) :=
  ⟨sub_nonneg.mpr ha.2, sub_le_self 1 ha.1⟩

theorem NormPair.isDegree_conjunction (pair : NormPair) (ha : IsDegree a) (hb : IsDegree b) :
    IsDegree (pair.conjunction a b) := by
  cases pair with
  | minMax => exact ha.minimum hb
  | probability => exact ha.mul hb
  | lukasiewicz =>
    show IsDegree (Scalar.maximum 0 (a + b - 1))
    rw [Scalar.maximum_rat]
    exact ⟨le_max_left 0 _, max_le zero_le_one (by linarith [ha.2, hb.2])⟩

theorem NormPair.isDegree_disjunction (pair : NormPair) (ha : IsDegree a) (hb : IsDegree b) :
    IsDegree (pair.disjunction a b) := by
  cases pair with
  | minMax => exact ha.maximum hb
  | probability =>
    -- the complement of the product of the complements
    have hdual : a + b - a * b = 1 - (1 - a) * (1 - b) := by ring
    show IsDegree (a + b - a * b)
    rw [hdual]
    exact (ha.complement.mul hb.complement).complement
  | lukasiewicz => exact isDegree_boundedSum ha hb

theorem Activation.isDegree_apply (activation : Activation) (ha : IsDegree a) (hb : IsDegree b) :
    IsDegree (activation.apply a b) := by
  cases activation with
  | minimum => exact ha.minimum hb
  | product => exact ha.mul hb

theorem Accumulation.isDegree_apply (accumulation : Accumulation) (ha : IsDegree a)
    (hb : IsDegree b) : IsDegree (accumulation.apply a b) := by
  cases accumulation with
  | maximum => exact ha.maximum hb
  | boundedSum => exact isDegree_boundedSum ha hb

/-! ## Terms -/

/-- A line stays between two points that it runs through. -/
theorem Point.line_mem {p q : Point Rat} {x : Rat} (hpx : p.x < x) (hqx : x ≤ q.x) :
    p.y + (q.y - p.y) * (x - p.x) / (q.x - p.x) ∈ Set.uIcc p.y q.y := by
  have hwidth : 0 < q.x - p.x := sub_pos.mpr (hpx.trans_le hqx)
  -- the share of the segment that lies before the place
  have hshare : (x - p.x) / (q.x - p.x) ∈ Set.Icc 0 1 := by
    refine ⟨div_nonneg (sub_nonneg.mpr hpx.le) hwidth.le, (div_le_one hwidth).mpr ?_⟩
    exact sub_le_sub_right hqx p.x
  rw [mul_comm, mul_div_right_comm, add_comm]
  exact Scalar.mem_uIcc_of_share hshare

theorem Point.height_eq_ok {p q : Point Rat} {x : Rat} (hpx : p.x < x) (hqx : x ≤ q.x)
    (division : Division) :
    height division p q x = .ok (p.y + (q.y - p.y) * (x - p.x) / (q.x - p.x)) := by
  unfold height
  have hwidth : q.x - p.x ≠ 0 := (sub_pos.mpr (hpx.trans_le hqx)).ne'
  exact if_neg fun hzero => hwidth (beq_iff_eq.mp hzero.2)

/-- The height of a line at a place between two points that it runs through. -/
theorem Point.isDegree_height {p q : Point Rat} {x y : Rat} {division : Division}
    (hp : IsDegree p.y) (hq : IsDegree q.y) (hpx : p.x < x) (hqx : ¬ q.x < x)
    (h : height division p q x = .ok y) : IsDegree y := by
  rw [height_eq_ok hpx (not_lt.mp hqx)] at h
  rw [← Except.ok.inj h]
  exact Set.uIcc_subset_Icc hp hq (line_mem hpx (not_lt.mp hqx))

/-- The ordinates of the term are degrees. -/
def Term.Normal (t : Term Rat) : Prop := ∀ p ∈ t.points, IsDegree p.y

theorem Term.Normal.isDegree {t : Term Rat} {division : Division} {x y : Rat} (ht : t.Normal)
    (h : t.degree division x = .ok y) : IsDegree y := by
  rcases degree_cases (fun p _ => Scalar.isNaN_rat p.x) (Scalar.isNaN_rat x) with
    hnil | ⟨p, hp, hdegree⟩ | ⟨p, hp, q, hq, hpx, hqx, hdegree⟩
  · unfold degree at h
    rw [hnil] at h
    cases h
  · obtain rfl := Except.ok.inj ((hdegree division).symm.trans h)
    exact ht p hp
  · exact Point.isDegree_height (ht p hp) (ht q hq) hpx hqx ((hdegree division).symm.trans h)

/-! ## Rules -/

theorem Condition.isDegree_strength {inputs : List (Variable Rat)}
    (hinputs : ∀ v ∈ inputs, ∀ t ∈ v.terms, IsDegree t.dom) {pair : NormPair}
    {condition : Condition} {s : Rat} (h : condition.strength inputs pair = .ok s) :
    IsDegree s := by
  induction condition generalizing s with
  | is leaf =>
    change degree inputs leaf = .ok s at h
    unfold degree at h
    split at h
    · cases h
    · rename_i v hv
      obtain ⟨t, ht, rfl⟩ := map_eq_ok.mp h
      have hdom : IsDegree t.dom := hinputs v (List.mem_of_find?_eq_some hv) t
        (List.mem_of_getElem? (Variable.term_eq_ok.mp ht).2)
      split
      · exact hdom.complement
      · exact hdom
  | and l r ihl ihr =>
    obtain ⟨a, ha, h⟩ := bind_eq_ok.mp h
    obtain ⟨b, hb, h⟩ := bind_eq_ok.mp h
    rw [← Except.ok.inj h]
    exact pair.isDegree_conjunction (ihl ha) (ihr hb)
  | or l r ihl ihr =>
    obtain ⟨a, ha, h⟩ := bind_eq_ok.mp h
    obtain ⟨b, hb, h⟩ := bind_eq_ok.mp h
    rw [← Except.ok.inj h]
    exact pair.isDegree_disjunction (ihl ha) (ihr hb)

theorem Rule.isDegree_level {inputs : List (Variable Rat)}
    (hinputs : ∀ v ∈ inputs, ∀ t ∈ v.terms, IsDegree t.dom) {pair : NormPair} {r r' : Rule Rat}
    (hweight : IsDegree r.conclusion.weight) (h : r.activate inputs pair = .ok r') :
    IsDegree r'.level := by
  obtain ⟨s, hs, rfl⟩ := map_eq_ok.mp h
  exact (Condition.isDegree_strength hinputs hs).mul hweight

end FuzzyInference
