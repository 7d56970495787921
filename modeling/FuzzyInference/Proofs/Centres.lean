import Mathlib.Algebra.BigOperators.Ring.List
import FuzzyInference.Proofs.Ranges

/-!
# Mean and median of the mass

The crisp value of a set with mass is the mean of the grid points with the heights as weights, or
the point where more than half of the mass has been passed.  There always is such a point, it is the
only one, and it has mass itself.  Neither value depends on the unit that heights are measured in.
-/

namespace FuzzyInference

/-! ## Running sums -/

namespace Scalar

theorem half_rat : (half : Rat) = 1 / 2 := by
  show (5 : Rat) / (10 : Nat) = 1 / 2
  norm_num

theorem getElem?_sumsFrom (total : Rat) {ys : List Rat} {k : Nat} (hk : k < ys.length) :
    (sumsFrom total ys)[k]? = some (total + (ys.take (k + 1)).sum) := by
  induction ys generalizing total k with
  | nil => cases hk
  | cons y ys ih =>
    cases k with
    | zero => simp [sumsFrom]
    | succ k =>
      rw [sumsFrom, List.getElem?_cons_succ, ih _ (Nat.lt_of_succ_lt_succ hk), List.take_succ_cons,
        List.sum_cons, add_assoc]

theorem getElem_runningSums {ys : List Rat} {k : Nat} (hk : k < (runningSums ys).length) :
    (runningSums ys)[k] = (ys.take (k + 1)).sum := by
  rw [List.getElem_eq_iff]
  cases ys with
  | nil => cases hk
  | cons y ys =>
    cases k with
    | zero => simp [runningSums]
    | succ k =>
      have hk' : k < ys.length := by
        rw [length_runningSums] at hk
        exact Nat.lt_of_succ_lt_succ hk
      rw [runningSums, List.getElem?_cons_succ, getElem?_sumsFrom y hk', List.take_succ_cons,
        List.sum_cons]

end Scalar

/-! ## The point that halves the mass -/

namespace Grid

variable {grid : Grid Rat} {k : Nat}

/-- Not more than half of the mass lies in front of the place, and more than half with it. -/
structure Halves (grid : Grid Rat) (k : Nat) : Prop where
  before : (grid.ys.take k).sum ≤ grid.ys.sum / 2
  passed : grid.ys.sum / 2 < (grid.ys.take (k + 1)).sum

-- With the mass in front of a place grows the place.
theorem Halves.le {j : Nat} (hys : ∀ y ∈ grid.ys, 0 ≤ y) (hk : grid.Halves k)
    (hj : grid.Halves j) : k ≤ j := by
  by_contra hlt
  have hmass : (grid.ys.take (j + 1)).sum ≤ (grid.ys.take k).sum :=
    (List.take_sublist_take_left (not_le.mp hlt)).sum_le_sum
      fun y hy => hys y (List.mem_of_mem_take hy)
  exact absurd hj.passed (not_lt.mpr (hmass.trans hk.before))

theorem Halves.unique {j : Nat} (hys : ∀ y ∈ grid.ys, 0 ≤ y) (hk : grid.Halves k)
    (hj : grid.Halves j) : k = j :=
  le_antisymm (hk.le hys hj) (hj.le hys hk)

/-- The place that halves the mass has mass itself. -/
theorem Halves.exists_pos (h : grid.Halves k) : ∃ y, grid.ys[k]? = some y ∧ 0 < y := by
  have hmore : (grid.ys.take k).sum < (grid.ys.take (k + 1)).sum := h.before.trans_lt h.passed
  rw [List.take_add_one, List.sum_append] at hmore
  cases hy : grid.ys[k]? with
  | none => simp [hy] at hmore
  | some y => exact ⟨y, rfl, by simpa [hy] using hmore⟩

-- The last running sum is the whole mass, so the search for more than half of it ends.
theorem exists_passed (hmass : 0 < grid.ys.sum) : ∃ k, (Scalar.runningSums grid.ys).findIdx?
    (fun s => decide (Scalar.half * Scalar.sum grid.ys < s)) = some k := by
  rw [← Option.isSome_iff_exists, List.findIdx?_isSome, List.any_eq_true]
  have hlength : 0 < grid.ys.length := by
    rw [List.length_pos_iff]
    rintro hnil
    rw [hnil] at hmass
    exact lt_irrefl _ hmass
  have hlast : grid.ys.length - 1 < (Scalar.runningSums grid.ys).length := by
    rw [Scalar.length_runningSums]
    omega
  refine ⟨_, List.getElem_mem hlast, decide_eq_true ?_⟩
  rw [Scalar.getElem_runningSums, Nat.sub_add_cancel hlength, List.take_length, Scalar.sum_rat,
    Scalar.half_rat]
  linarith

theorem halves_of_passed (hmass : 0 < grid.ys.sum) (h : (Scalar.runningSums grid.ys).findIdx?
    (fun s => decide (Scalar.half * Scalar.sum grid.ys < s)) = some k) : grid.Halves k := by
  obtain ⟨hlt, hpassed, hbefore⟩ := List.findIdx?_eq_some_iff_getElem.mp h
  rw [decide_eq_true_eq, Scalar.getElem_runningSums, Scalar.sum_rat, Scalar.half_rat] at hpassed
  refine ⟨?_, by linarith⟩
  cases k with
  | zero =>
    rw [List.take_zero, List.sum_nil]
    linarith
  | succ j =>
    have hj := hbefore j (Nat.lt_succ_self j)
    rw [decide_eq_true_eq, not_lt, Scalar.getElem_runningSums, Scalar.sum_rat,
      Scalar.half_rat] at hj
    linarith

/-! ## The mean -/

/-- The mean of the points with the heights as weights. -/
def mean (grid : Grid Rat) : Rat := (List.zipWith (· * ·) grid.xs grid.ys).sum / grid.ys.sum

/-- The points that carry mass. -/
def carriers (grid : Grid Rat) : List Rat :=
  ((grid.xs.zip grid.ys).filter fun p => decide (0 < p.2)).map Prod.fst

theorem mem_carriers {x : Rat} : x ∈ grid.carriers ↔ ∃ y, (x, y) ∈ grid.xs.zip grid.ys ∧ 0 < y := by
  unfold carriers
  simp

theorem carriers_ne_nil (hlength : grid.xs.length = grid.ys.length) {y : Rat} (hy : y ∈ grid.ys)
    (hpos : 0 < y) : grid.carriers ≠ [] := by
  obtain ⟨k, hk, rfl⟩ := List.getElem_of_mem hy
  refine List.ne_nil_of_mem (mem_carriers.mpr ⟨grid.ys[k], ?_, hpos⟩) (a := grid.xs[k])
  rw [List.mem_iff_getElem]
  exact ⟨k, by simpa [hlength] using hk, List.getElem_zip⟩

theorem exists_ends {xs : List Rat} (h : xs ≠ []) :
    ∃ low high, IsLeast {x | x ∈ xs} low ∧ IsGreatest {x | x ∈ xs} high := by
  obtain ⟨first, rest, rfl⟩ := List.exists_cons_of_ne_nil h
  exact ⟨_, _, Scalar.isLeast_least first rest, Scalar.isGreatest_greatest first rest⟩

/-- The mean lies between the outermost points that carry mass. -/
theorem mean_mem (hlength : grid.xs.length = grid.ys.length) (hys : ∀ y ∈ grid.ys, 0 ≤ y)
    (hmass : 0 < grid.ys.sum) {low high : Rat} (hlow : IsLeast {x | x ∈ grid.carriers} low)
    (hhigh : IsGreatest {x | x ∈ grid.carriers} high) : grid.mean ∈ Set.Icc low high := by
  refine Scalar.average_mem_Icc hlength (fun p hp hne => ?_) hys hmass
  have hpos : 0 < p.2 := lt_of_le_of_ne (hys p.2 (List.of_mem_zip hp).2) hne.symm
  have hmem : p.1 ∈ grid.carriers := mem_carriers.mpr ⟨p.2, hp, hpos⟩
  exact ⟨hlow.2 hmem, hhigh.2 hmem⟩

/-! ## Other units -/

/-- The grid with all heights multiplied by a number. -/
def scale (c : Rat) (grid : Grid Rat) : Grid Rat := { grid with ys := grid.ys.map (c * ·) }

variable {c : Rat}

theorem sum_scale (c : Rat) (ys : List Rat) : (ys.map (c * ·)).sum = c * ys.sum :=
  (List.sum_map_mul_left ys id c).trans (by rw [List.map_id])

theorem mean_scale (hc : 0 < c) : (grid.scale c).mean = grid.mean := by
  have hmoment : List.zipWith (· * ·) grid.xs (grid.ys.map (c * ·)) =
      (List.zipWith (· * ·) grid.xs grid.ys).map (c * ·) := by
    rw [List.zipWith_map_right, List.map_zipWith]
    congr 1
    funext x y
    ring
  unfold mean scale
  rw [hmoment, sum_scale, sum_scale, mul_div_mul_left _ _ hc.ne']

theorem halves_scale (hc : 0 < c) : (grid.scale c).Halves k ↔ grid.Halves k := by
  have hhalf : (grid.ys.map (c * ·)).sum / 2 = c * (grid.ys.sum / 2) := by
    rw [sum_scale, mul_div_assoc]
  have htake (n : Nat) : ((grid.ys.map (c * ·)).take n).sum = c * (grid.ys.take n).sum := by
    rw [← List.map_take, sum_scale]
  constructor
  · rintro ⟨hbefore, hpassed⟩
    unfold scale at hbefore hpassed
    rw [hhalf, htake] at hbefore hpassed
    exact ⟨le_of_mul_le_mul_left hbefore hc, lt_of_mul_lt_mul_left hpassed hc.le⟩
  · rintro ⟨hbefore, hpassed⟩
    unfold scale
    refine ⟨?_, ?_⟩
    · rw [hhalf, htake]
      exact mul_le_mul_of_nonneg_left hbefore hc.le
    · rw [hhalf, htake]
      exact mul_lt_mul_of_pos_left hpassed hc

end Grid

/-! ## Crisp values -/

namespace Grid

variable {grid : Grid Rat}

theorem silent_or_mass (hys : ∀ y ∈ grid.ys, 0 ≤ y) :
    (∀ y ∈ grid.ys, y = 0) ∨ (∃ y ∈ grid.ys, y ≠ 0) ∧ 0 < grid.ys.sum := by
  by_cases hsilent : ∀ y ∈ grid.ys, y = 0
  · exact .inl hsilent
  · push Not at hsilent
    obtain ⟨y, hy, hne⟩ := hsilent
    refine .inr ⟨⟨y, hy, hne⟩, ?_⟩
    exact (lt_of_le_of_ne (hys y hy) hne.symm).trans_le (List.single_le_sum hys y hy)

theorem scale_nonneg {c : Rat} (hc : 0 < c) (hys : ∀ y ∈ grid.ys, 0 ≤ y) :
    ∀ y ∈ (grid.scale c).ys, 0 ≤ y := by
  intro y hy
  obtain ⟨y₀, hy₀, rfl⟩ := List.mem_map.mp hy
  exact mul_nonneg hc.le (hys y₀ hy₀)

end Grid

namespace OutputVariable

variable {o : OutputVariable Rat} {grid : Grid Rat}

/-- `x` is the number that stands for the heights of the grid: the default value where all of them
are zero, else their mean or their median. -/
structure Centred (o : OutputVariable Rat) (grid : Grid Rat) (x : Rat) : Prop where
  silent : (∀ y ∈ grid.ys, y = 0) → x = o.defaultValue
  mean : (∃ y ∈ grid.ys, y ≠ 0) → o.method = .gravity ∨ o.method = .singletons →
    x = grid.mean ∧ ∃ low high, IsLeast {x | x ∈ grid.carriers} low ∧
      IsGreatest {x | x ∈ grid.carriers} high ∧ x ∈ Set.Icc low high
  median : (∃ y ∈ grid.ys, y ≠ 0) → o.method = .area →
    ∃ k y, grid.xs[k]? = some x ∧ grid.ys[k]? = some y ∧ 0 < y ∧ grid.Halves k ∧
      (∀ j, grid.Halves j → j = k) ∧
      (Scalar.runningSums grid.ys).findIdx?
        (fun s => decide (Scalar.half * Scalar.sum grid.ys < s)) = some k

theorem gravityCentre_eq (grid : Grid Rat) :
    gravityCentre grid (Scalar.sum grid.ys) = grid.mean := by
  unfold gravityCentre Grid.mean
  rw [Scalar.sum_rat, Scalar.sum_rat]

theorem areaCentre_of_halves (hys : ∀ y ∈ grid.ys, 0 ≤ y) (hmass : 0 < grid.ys.sum) {k : Nat}
    (hk : grid.Halves k) : areaCentre grid (Scalar.sum grid.ys) = grid.xs.getD k 0 := by
  obtain ⟨j, hj⟩ := Grid.exists_passed hmass
  obtain rfl := (Grid.halves_of_passed hmass hj).unique hys hk
  unfold areaCentre
  dsimp only
  rw [hj, Option.getD_some]

theorem centre_of_gravity (hmass : 0 < grid.ys.sum)
    (hmethod : o.method = .gravity ∨ o.method = .singletons) :
    o.centre grid = (grid.mean, true) := by
  unfold centre
  dsimp only
  rw [if_neg (by rw [Scalar.sum_rat]; exact not_le.mpr hmass), gravityCentre_eq]
  rcases hmethod with h | h <;> rw [h]

theorem centre_of_area (hys : ∀ y ∈ grid.ys, 0 ≤ y) (hmass : 0 < grid.ys.sum)
    (hmethod : o.method = .area) {k : Nat} (hk : grid.Halves k) :
    o.centre grid = (grid.xs.getD k 0, true) := by
  unfold centre
  dsimp only
  rw [if_neg (by rw [Scalar.sum_rat]; exact not_le.mpr hmass), hmethod,
    areaCentre_of_halves hys hmass hk]

/-- The number that stands for the heights is the default value, the mean or the median. -/
theorem centred_centre (hlength : grid.xs.length = grid.ys.length) (hys : ∀ y ∈ grid.ys, 0 ≤ y) :
    o.Centred grid (o.centre grid).1 := by
  rcases Grid.silent_or_mass hys with hsilent | ⟨⟨y, hy, hne⟩, hmass⟩
  · have hnone : ¬ ∃ y ∈ grid.ys, y ≠ 0 := fun ⟨y, hy, hne⟩ => hne (hsilent y hy)
    exact ⟨fun _ => centre_of_silent hsilent, fun h => absurd h hnone, fun h => absurd h hnone⟩
  · refine ⟨fun hsilent => absurd (hsilent y hy) hne, fun _ hmethod => ?_, fun _ hmethod => ?_⟩
    · obtain ⟨low, high, hlow, hhigh⟩ := Grid.exists_ends
        (Grid.carriers_ne_nil hlength hy (lt_of_le_of_ne (hys y hy) hne.symm))
      rw [centre_of_gravity hmass hmethod]
      exact ⟨rfl, low, high, hlow, hhigh, Grid.mean_mem hlength hys hmass hlow hhigh⟩
    · obtain ⟨k, hpassed⟩ := Grid.exists_passed hmass
      have hk := Grid.halves_of_passed hmass hpassed
      obtain ⟨yk, hyk, hpos⟩ := hk.exists_pos
      have hlt : k < grid.xs.length := hlength ▸ (List.getElem?_eq_some_iff.mp hyk).1
      rw [centre_of_area hys hmass hmethod hk]
      refine ⟨k, yk, ?_, hyk, hpos, hk, fun j hj => hj.unique hys hk, hpassed⟩
      rw [List.getD_eq_getElem?_getD, List.getElem?_eq_getElem hlt, Option.getD_some]

/-- Heights in another unit stand for the same number. -/
theorem centre_scale {c : Rat} (hc : 0 < c) (hys : ∀ y ∈ grid.ys, 0 ≤ y) :
    o.centre (grid.scale c) = o.centre grid := by
  rcases Grid.silent_or_mass hys with hsilent | ⟨-, hmass⟩
  · have hmute : ∀ y ∈ (grid.scale c).ys, y = 0 := by
      intro y hy
      obtain ⟨y₀, hy₀, rfl⟩ := List.mem_map.mp hy
      rw [hsilent y₀ hy₀, mul_zero]
    have hsum : (grid.scale c).ys.sum = grid.ys.sum := by
      rw [List.sum_eq_zero hmute, List.sum_eq_zero hsilent]
    unfold centre
    dsimp only
    rw [Scalar.sum_rat, Scalar.sum_rat, hsum, List.sum_eq_zero hsilent, if_pos le_rfl,
      if_pos le_rfl]
  · have hmass' : 0 < (grid.scale c).ys.sum := (Grid.sum_scale c grid.ys).symm ▸ mul_pos hc hmass
    have hgravity (hmethod : o.method = .gravity ∨ o.method = .singletons) :
        o.centre (grid.scale c) = o.centre grid := by
      rw [centre_of_gravity hmass' hmethod, centre_of_gravity hmass hmethod, Grid.mean_scale hc]
    cases hmethod : o.method with
    | gravity => exact hgravity (.inl hmethod)
    | singletons => exact hgravity (.inr hmethod)
    | area =>
      obtain ⟨k, hpassed⟩ := Grid.exists_passed hmass
      have hk := Grid.halves_of_passed hmass hpassed
      rw [centre_of_area hys hmass hmethod hk, centre_of_area (Grid.scale_nonneg hc hys) hmass'
        hmethod ((Grid.halves_scale hc).mpr hk)]
      rfl

/-- Defuzzifying heights that are not negative gives the default value, if all of them are zero,
else the mean or the median of the mass.  Heights in another unit give the same number. -/
theorem defuzzify_centred (hgrid : o.grid = some grid)
    (hlength : grid.xs.length = grid.ys.length) (hys : ∀ y ∈ grid.ys, 0 ≤ y) :
    ∃ x, o.Centred grid x ∧ defuzzify.Leads o { o with crisp := x } x ∧
      ∀ c, 0 < c → defuzzify.Leads { o with grid := some (grid.scale c) }
        { o with grid := some (grid.scale c), crisp := x } x := by
  refine ⟨(o.centre grid).1, centred_centre hlength hys,
    ⟨_, defuzzify_of_grid (grid?_eq_ok.mpr hgrid)⟩, fun c hc => ?_⟩
  have hscaled : ({ o with grid := some (grid.scale c) } : OutputVariable Rat).centre
      (grid.scale c) = o.centre grid := centre_scale hc hys
  rw [← hscaled]
  exact ⟨_, defuzzify_of_grid rfl⟩

/-- Four points, two of them with mass. -/
def hill : Grid Rat := ⟨[0, 1, 2, 3], [0, 1 / 2, 1 / 4, 0]⟩

def hilly : OutputVariable Rat :=
  { name := "fan", terms := [], crisp := 0, defaultValue := 7, resolution := 4, method := .area
    grid := some hill }

theorem defuzzify_centred_hill : hill.Halves 1 ∧ defuzzify.Leads hilly { hilly with crisp := 1 } 1 ∧
    ∀ c, 0 < c → defuzzify.Leads { hilly with grid := some (hill.scale c) }
      { hilly with grid := some (hill.scale c), crisp := 1 } 1 := by
  have hhalves : hill.Halves 1 := ⟨by decide +kernel, by decide +kernel⟩
  obtain ⟨x, hx, hleads, hscaled⟩ :=
    defuzzify_centred (o := hilly) rfl rfl (by decide +kernel)
  obtain ⟨k, y, hk, -, -, -, hunique, -⟩ :=
    hx.median ⟨1 / 2, by decide +kernel, by decide +kernel⟩ rfl
  obtain rfl := hunique 1 hhalves
  obtain rfl : 1 = x := Option.some.inj hk
  exact ⟨hhalves, hleads, hscaled⟩

end OutputVariable

end FuzzyInference
