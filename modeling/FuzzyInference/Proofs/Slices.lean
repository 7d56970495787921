import FuzzyInference.Proofs.Ranges
import Mathlib.Data.Rat.Floor

/-!
# The cells that a term reaches

A rule changes the slice of the grid between the cells where the concluded term begins and ends.
Over the rationals the slice lies on the grid and holds every grid point of the term.  Outside of it
there is nothing to be changed, if the term begins and ends at zero.
-/

namespace FuzzyInference

/-! ## Points at equal distances -/

namespace Scalar

variable {a b x y : Rat} {n i : Nat}

/-- The distance of neighbouring points; none if there are no neighbours. -/
def spacing (a b : Rat) (n : Nat) : Rat := if n < 2 then 0 else (b - a) / ((n - 1 : Nat) : Rat)

theorem spacing_nonneg (hab : a ≤ b) : 0 ≤ spacing a b n := by
  unfold spacing
  split
  · exact le_rfl
  · exact div_nonneg (sub_nonneg.mpr hab) (Nat.cast_nonneg _)

-- Each point is the same, be it computed from the step or from the whole width.
theorem spaced_add_two (a b : Rat) (m : Nat) :
    spaced a b (m + 2) =
      (List.range (m + 1)).map (fun (i : Nat) => a + i * ((b - a) / ((m + 1 : Nat) : Rat))) ++
        [b] := by
  have hmap : (List.range (m + 1)).map (fun (i : Nat) =>
        if (b - a) / ((m + 1 : Nat) : Rat) == 0 then (i : Rat) / (m + 1 : Nat) * (b - a) + a
        else (i : Rat) * ((b - a) / (m + 1 : Nat)) + a) =
      (List.range (m + 1)).map fun (i : Nat) => a + i * ((b - a) / ((m + 1 : Nat) : Rat)) := by
    refine List.map_congr_left fun i _ => ?_
    split
    · ring
    · ring
  exact congrArg (· ++ [b]) hmap

/-- The places of the points. -/
theorem getElem?_spaced (hi : i < n) : (spaced a b n)[i]? = some (a + i * spacing a b n) := by
  match n with
  | 1 =>
    obtain rfl : i = 0 := by omega
    simp [spaced, spacing]
  | m + 2 =>
    have hwidth : spacing a b (m + 2) = (b - a) / ((m + 1 : Nat) : Rat) := if_neg (by omega)
    have hcount : ((m + 1 : Nat) : Rat) ≠ 0 := Nat.cast_ne_zero.mpr (Nat.succ_ne_zero m)
    rw [spaced_add_two, hwidth]
    rcases Nat.lt_or_eq_of_le (Nat.lt_succ_iff.mp hi) with hlt | rfl
    · rw [List.getElem?_append_left (by simpa using hlt), List.getElem?_map,
        List.getElem?_range hlt, Option.map_some]
    · rw [List.getElem?_append_right (by simp), List.length_map, List.length_range, Nat.sub_self,
        List.getElem?_cons_zero, mul_div_cancel₀ _ hcount, add_sub_cancel]

theorem head?_spaced (hn : 0 < n) : (spaced a b n).head? = some a := by
  rw [List.head?_eq_getElem?, getElem?_spaced hn, Nat.cast_zero, zero_mul, add_zero]

theorem headD_spaced (hn : 0 < n) : (spaced a b n).headD 0 = a := by
  rw [List.headD_eq_head?_getD, head?_spaced hn, Option.getD_some]

theorem getLast?_spaced (hn : 2 ≤ n) : (spaced a b n).getLast? = some b := by
  obtain ⟨m, rfl⟩ := Nat.exists_eq_add_of_le' hn
  rw [spaced_add_two, List.getLast?_concat]

theorem getLastD_spaced (hn : 2 ≤ n) : (spaced a b n).getLastD 0 = b := by
  rw [List.getLastD_eq_getLast?, getLast?_spaced hn, Option.getD_some]

/-! ## Cells of places -/

theorem billionth_rat : (0 : Rat) < billionth ∧ (billionth : Rat) < 1 := by
  decide +kernel

/-- The cell of a place on a grid of points from `a` on. -/
def cellOf (a step x : Rat) : Int := if step = 0 then 0 else ⌊(x - a) / step + billionth⌋

theorem cellOf_mono {step : Rat} (hstep : 0 ≤ step) (hxy : x ≤ y) :
    cellOf a step x ≤ cellOf a step y := by
  unfold cellOf
  split
  · exact le_rfl
  · have hshare := div_le_div_of_nonneg_right (sub_le_sub_right hxy a) hstep
    exact Int.floor_mono (add_le_add_left hshare _)

-- The slack of a billionth does not reach the next cell.
theorem cellOf_le {step : Rat} (hstep : 0 ≤ step) (h : x ≤ a + i * step) : cellOf a step x ≤ i := by
  unfold cellOf
  split
  · exact Int.natCast_nonneg i
  · rename_i hne
    have hpos : 0 < step := lt_of_le_of_ne hstep (Ne.symm hne)
    have hshare : (x - a) / step ≤ i := (div_le_iff₀ hpos).mpr (by linarith)
    rw [← Int.lt_add_one_iff, Int.floor_lt]
    push_cast
    linarith [billionth_rat.2]

theorem le_cellOf {step : Rat} (hstep : 0 < step) (h : a + i * step ≤ x) : i ≤ cellOf a step x := by
  unfold cellOf
  rw [if_neg hstep.ne', Int.le_floor]
  have hshare : (i : Rat) ≤ (x - a) / step := (le_div_iff₀ hstep).mpr (by linarith)
  push_cast
  linarith [billionth_rat.1]

theorem cellOf_nonneg {step : Rat} (hstep : 0 ≤ step) (h : a ≤ x) : 0 ≤ cellOf a step x := by
  rcases hstep.eq_or_lt with rfl | hpos
  · exact (if_pos rfl).ge
  · exact le_cellOf (i := 0) hpos (by simpa using h)

theorem cellOf_le_last (hn : 0 < n) (hab : a ≤ b) (hx : x ≤ b) :
    cellOf a (spacing a b n) x ≤ n - 1 := by
  by_cases hone : n < 2
  · obtain rfl : n = 1 := by omega
    exact (if_pos rfl).le
  · have hcount : ((n - 1 : Nat) : Rat) ≠ 0 := Nat.cast_ne_zero.mpr (by omega)
    have hend : a + (n - 1 : Nat) * spacing a b n = b := by
      unfold spacing
      rw [if_neg hone, mul_div_cancel₀ _ hcount, add_sub_cancel]
    have hle := cellOf_le (spacing_nonneg hab) (hx.trans hend.ge)
    omega

end Scalar

/-! ## Heights that are not changed -/

/-- A slice may be taken for the whole, where nothing is changed outside of it. -/
theorem Grid.overlay_eq_zipWith {α : Type} {combine : α → α → α} {samples : List α}
    {start stop : Nat} {grid : Grid α}
    (h : ∀ j s y, samples[j]? = some s → grid.ys[j]? = some y → ¬ (start ≤ j ∧ j ≤ stop) →
      combine s y = y) :
    grid.overlay combine samples start stop =
      { grid with ys := List.zipWith combine samples grid.ys } := by
  refine congrArg (Grid.mk grid.xs) (List.ext_getElem? fun j => ?_)
  refine (getElem?_overlay combine samples start stop grid j).trans ?_
  rw [List.getElem?_zipWith]
  cases hs : samples[j]? with
  | none => rfl
  | some s =>
    cases hy : grid.ys[j]? with
    | none => rfl
    | some y =>
      by_cases hreach : start ≤ j ∧ j ≤ stop
      · exact congrArg some (if_pos hreach)
      · exact congrArg some ((if_neg hreach).trans (h j s y hs hy hreach).symm)

theorem Activation.apply_zero (activation : Activation) {level : Rat} (h : 0 ≤ level) :
    activation.apply level 0 = 0 := by
  cases activation with
  | minimum => exact (Scalar.minimum_rat level 0).trans (min_eq_right h)
  | product => exact mul_zero level

theorem Accumulation.apply_zero (accumulation : Accumulation) {y : Rat} (hy : IsDegree y) :
    accumulation.apply 0 y = y := by
  cases accumulation with
  | maximum => exact (Scalar.maximum_rat 0 y).trans (max_eq_right hy.1)
  | boundedSum =>
    show Scalar.minimum 1 (0 + y) = y
    rw [Scalar.minimum_rat, zero_add, min_eq_right hy.2]

-- Outside of its ends a term keeps the heights of its first and its last point.
theorem Term.degree_outside {t : Term Rat} {p q : Point Rat} (hp : t.points.head? = some p)
    (hq : t.points.getLast? = some q) (hpy : p.y = 0) (hqy : q.y = 0) {x : Rat}
    (hx : x ≤ p.x ∨ q.x ≤ x) (division : Division) : t.degree division x = .ok 0 := by
  obtain ⟨rest, hpoints⟩ := List.head?_eq_some_iff.mp hp
  rw [hpoints, List.getLast?_cons, ← List.getLastD_eq_getLast?] at hq
  have hlast : rest.getLastD p = q := Option.some.inj hq
  by_cases hfirst : x ≤ p.x
  · rw [degree_of_le_first hpoints hfirst, hpy]
  · have hqx : (rest.getLastD p).x ≤ x := by
      rw [hlast]
      exact hx.resolve_left hfirst
    rw [degree_of_last_le hpoints hfirst hqx, hlast, hqy]

-- A grid point outside of the slice lies outside of the term.
theorem Term.sample_outside {t : Term Rat} {p q : Point Rat} (hp : t.points.head? = some p)
    (hq : t.points.getLast? = some q) (hpy : p.y = 0) (hqy : q.y = 0) {low high : Rat} {n : Nat}
    (hlow : low ≤ p.x) (hwidth : low ≤ high)
    (hsamples : (Scalar.spaced low high n).mapM (t.degree .total) = .ok t.samples) {j : Nat}
    {s : Rat} (hs : t.samples[j]? = some s)
    (hout : ¬ (Scalar.cellOf low (Scalar.spacing low high n) p.x ≤ j ∧
      j ≤ Scalar.cellOf low (Scalar.spacing low high n) q.x)) : s = 0 := by
  obtain ⟨x, hx, hdegree⟩ := getElem?_of_mapM hsamples hs
  have hj : j < n := by
    have := (List.getElem?_eq_some_iff.mp hx).1
    rwa [Scalar.length_spaced] at this
  rw [Scalar.getElem?_spaced hj] at hx
  have hends : x ≤ p.x ∨ q.x ≤ x := by
    rw [← Option.some.inj hx]
    have hstep := Scalar.spacing_nonneg (n := n) hwidth
    generalize Scalar.spacing low high n = step at hout hstep ⊢
    rcases hstep.eq_or_lt with rfl | hpos
    · -- all grid points are one
      exact .inl (by simpa using hlow)
    · by_contra hinside
      obtain ⟨hpx, hqx⟩ := not_or.mp hinside
      exact hout ⟨Scalar.cellOf_le hstep (not_le.mp hpx).le,
        Scalar.le_cellOf hpos (not_le.mp hqx).le⟩
  exact Except.ok.inj (hdegree.symm.trans (t.degree_outside hp hq hpy hqy hends .total))

/-! ## Grids of the present terms -/

namespace OutputVariable

variable {o : OutputVariable Rat} {grid : Grid Rat} {low high : Rat}

theorem delta_of_spaced (hgrid : o.grid = some grid)
    (hxs : grid.xs = Scalar.spaced low high o.resolution) :
    o.delta = .ok (Scalar.spacing low high o.resolution) := by
  unfold delta
  rw [grid?_eq_ok.mpr hgrid]
  refine congrArg Except.ok ?_
  unfold Scalar.spacing
  split
  · rfl
  · rename_i hn
    dsimp only
    rw [hxs, Scalar.headD_spaced (by omega), Scalar.getLastD_spaced (by omega)]

theorem indexOf_of_spaced (hgrid : o.grid = some grid)
    (hxs : grid.xs = Scalar.spaced low high o.resolution) (hresolution : 0 < o.resolution)
    (x : Rat) :
    o.indexOf x = .ok (Scalar.cellOf low (Scalar.spacing low high o.resolution) x) := by
  unfold indexOf
  rw [delta_of_spaced hgrid hxs, grid?_eq_ok.mpr hgrid]
  dsimp only [bind, Except.bind]
  unfold Scalar.cellOf
  rw [hxs, Scalar.headD_spaced hresolution]
  by_cases hstep : Scalar.spacing low high o.resolution = 0
  · rw [if_pos (beq_iff_eq.mpr hstep), if_pos hstep]
    rfl
  · rw [if_neg (by rwa [beq_iff_eq]), if_neg hstep]
    rfl

end OutputVariable

namespace Rule

variable {o : OutputVariable Rat} {r : Rule Rat} {t : Term Rat}

theorem reach_eq {pick : List (Point Rat) → Option (Point Rat)} {p : Point Rat}
    (ht : o.term r.conclusion.term = .ok t) (hp : pick t.points = some p) :
    r.reach pick o = o.indexOf p.x := by
  unfold reach
  rw [ht]
  dsimp only [bind, Except.bind]
  rw [hp]

theorem clip_eq {n : Nat} {index : Int} (hlow : 0 ≤ index) (hhigh : index ≤ n - 1) :
    (clip n index : Int) = index := by
  unfold clip
  omega

-- Changing a slice is changing the whole, if nothing would be changed outside of it.
theorem accumulate_eq_zipWith {operators : Operators} {grid : Grid Rat} {first last : Int}
    (hgrid : o.grid = some grid) (ht : o.term r.conclusion.term = .ok t)
    (hstart : r.start o = .ok first) (hstop : r.stop o = .ok last) (hlow : 0 ≤ first)
    (hends : first ≤ last) (hhigh : last ≤ o.resolution - 1)
    (hout : ∀ (j : Nat) s y, t.samples[j]? = some s → grid.ys[j]? = some y →
      ¬ (first ≤ j ∧ j ≤ last) →
        operators.accumulation.apply (operators.activation.apply r.level s) y = y) :
    r.accumulate operators o = .ok { o with
      grid := some { grid with
        ys := List.zipWith (fun s y => operators.accumulation.apply
          (operators.activation.apply r.level s) y) t.samples grid.ys } } := by
  have hfirst := clip_eq hlow (hends.trans hhigh)
  have hlast := clip_eq (hlow.trans hends) hhigh
  unfold accumulate
  rw [hstart, hstop, ht, OutputVariable.grid?_eq_ok.mpr hgrid]
  refine congrArg (fun grid => Except.ok { o with grid := some grid })
    (Grid.overlay_eq_zipWith fun j s y hs hy hreach => hout j s y hs hy ?_)
  omega

end Rule

-- A term of the present ones lies between the ends of the grid.
theorem OutputVariable.Current.exists_ends_of_mem {o : OutputVariable Rat} (ho : o.Current)
    {t : Term Rat} (hmem : t ∈ o.terms) (hsorted : Point.Sorted t.points) :
    ∃ low high grid p q, o.grid = some grid ∧ grid.xs = Scalar.spaced low high o.resolution ∧
      grid.xs.mapM (t.degree .total) = .ok t.samples ∧ t.points.head? = some p ∧
      t.points.getLast? = some q ∧ low ≤ p.x ∧ p.x ≤ q.x ∧ q.x ≤ high := by
  obtain ⟨low, high, grid, hlow, hhigh, hgrid, hxs, hsamples⟩ := ho.exists_spaced
  obtain ⟨p, hp⟩ := Option.ne_none_iff_exists'.mp
    (mt List.head?_eq_none_iff.mp (ho.points_ne_nil hmem))
  obtain ⟨q, hq⟩ := Option.ne_none_iff_exists'.mp
    (mt List.getLast?_eq_none_iff.mp (ho.points_ne_nil hmem))
  have hfirst : t.first? = some p.x := by
    unfold Term.first?
    rw [hp, Option.map_some]
  have hlast : t.last? = some q.x := by
    unfold Term.last?
    rw [hq, Option.map_some]
  exact ⟨low, high, grid, p, q, hgrid, hxs, hsamples t hmem, hp, hq,
    hlow.2 (List.mem_filterMap.mpr ⟨t, hmem, hfirst⟩), t.first_le_last hsorted hfirst hlast,
    hhigh.2 (List.mem_filterMap.mpr ⟨t, hmem, hlast⟩)⟩

namespace Rule

variable {o : OutputVariable Rat} {r : Rule Rat} {t : Term Rat}

/-- The slice of the grid that a rule changes lies on the grid, and it holds every grid point
between the ends of the concluded term.  If the term begins and ends at zero, changing the slice
changes as much as changing the whole grid. -/
theorem slice_exact (ho : o.Current) (hresolution : 0 < o.resolution)
    (ht : o.term r.conclusion.term = .ok t) (hsorted : Point.Sorted t.points) :
    ∃ (p q : Point Rat) (grid : Grid Rat) (first last : Int),
      t.points.head? = some p ∧ t.points.getLast? = some q ∧ o.grid = some grid ∧
      r.start o = .ok first ∧ r.stop o = .ok last ∧
      0 ≤ first ∧ first ≤ last ∧ last ≤ o.resolution - 1 ∧
      (∀ step, o.delta = .ok step → 0 < step → ∀ (i : Nat) (x : Rat), grid.xs[i]? = some x →
        p.x ≤ x → x ≤ q.x → first ≤ i ∧ i ≤ last) ∧
      (p.y = 0 → q.y = 0 → 0 ≤ r.level → (∀ y ∈ grid.ys, IsDegree y) → ∀ operators : Operators,
        r.accumulate operators o = .ok { o with
          grid := some { grid with
            ys := List.zipWith (fun s y => operators.accumulation.apply
              (operators.activation.apply r.level s) y) t.samples grid.ys } }) := by
  have hmem : t ∈ o.terms := List.mem_of_getElem? (Variable.term_eq_ok.mp ht).2
  obtain ⟨low, high, grid, p, q, hgrid, hxs, hsamples, hp, hq, hlow_le, hends, hle_high⟩ :=
    ho.exists_ends_of_mem hmem hsorted
  have hwidth : low ≤ high := (hlow_le.trans hends).trans hle_high
  have hstep := Scalar.spacing_nonneg (n := o.resolution) hwidth
  have hstart := (reach_eq ht hp).trans (OutputVariable.indexOf_of_spaced hgrid hxs hresolution p.x)
  have hstop := (reach_eq ht hq).trans (OutputVariable.indexOf_of_spaced hgrid hxs hresolution q.x)
  have hlow_cell := Scalar.cellOf_nonneg hstep hlow_le
  have hcells := Scalar.cellOf_mono (a := low) hstep hends
  have hhigh_cell := Scalar.cellOf_le_last hresolution hwidth hle_high
  refine ⟨p, q, grid, _, _, hp, hq, hgrid, hstart, hstop, hlow_cell, hcells, hhigh_cell, ?_, ?_⟩
  · intro step hdelta hpos i x hx hpx hqx
    obtain rfl := Except.ok.inj ((OutputVariable.delta_of_spaced hgrid hxs).symm.trans hdelta)
    rw [hxs] at hx
    have hi : i < o.resolution := by
      have := (List.getElem?_eq_some_iff.mp hx).1
      rwa [Scalar.length_spaced] at this
    rw [Scalar.getElem?_spaced hi] at hx
    rw [← Option.some.inj hx] at hpx hqx
    exact ⟨Scalar.cellOf_le hstep hpx, Scalar.le_cellOf hpos hqx⟩
  · intro hpy hqy hlevel hheights operators
    rw [hxs] at hsamples
    refine accumulate_eq_zipWith hgrid ht hstart hstop hlow_cell hcells hhigh_cell
      fun j s y hs hy hout => ?_
    rw [Term.sample_outside hp hq hpy hqy hlow_le hwidth hsamples hs hout,
      operators.activation.apply_zero hlevel,
      operators.accumulation.apply_zero (hheights y (List.mem_of_getElem? hy))]

/-- The brightness of a lamp, with two terms side by side and an accumulated set. -/
def brightness : OutputVariable Rat where
  name := "brightness"
  terms := [⟨"dim", [⟨0, 0⟩, ⟨1, 1⟩, ⟨2, 0⟩], 0, [0, 1, 0, 0, 0]⟩,
    ⟨"bright", [⟨2, 0⟩, ⟨3, 1⟩, ⟨4, 0⟩], 0, [0, 0, 0, 1, 0]⟩]
  crisp := 0
  defaultValue := 0
  resolution := 5
  method := .gravity
  grid := some ⟨[0, 1, 2, 3, 4], [1, 1 / 2, 0, 0, 0]⟩

/-- A rule that makes the lamp bright. -/
def brighten : Rule Rat := ⟨.is ⟨"dusk", 0, false⟩, ⟨"brightness", 1, 1⟩, 1 / 2⟩

theorem slice_exact_lamp : brightness.Current ∧
    (∃ first last : Int, brighten.start brightness = .ok first ∧
      brighten.stop brightness = .ok last ∧ 0 ≤ first ∧ first ≤ 3 ∧ 3 ≤ last ∧ last ≤ 4) ∧
    brighten.accumulate ⟨.minMax, .minimum, .maximum⟩ brightness =
      .ok { brightness with grid := some ⟨[0, 1, 2, 3, 4], [1, 1 / 2, 0, 1 / 2, 0]⟩ } := by
  have hcurrent : brightness.Current := by
    refine ⟨by decide, [(0, 2), (2, 4)], by decide +kernel, by decide +kernel, ?_⟩
    decide +kernel
  obtain ⟨p, q, grid, first, last, hp, hq, hgrid, hstart, hstop, hlow, -, hhigh, hinside, hwhole⟩ :=
    slice_exact (o := brightness) (r := brighten) (t := ⟨"bright", [⟨2, 0⟩, ⟨3, 1⟩, ⟨4, 0⟩], 0,
      [0, 0, 0, 1, 0]⟩) hcurrent (by decide) rfl (by decide +kernel)
  obtain rfl := Option.some.inj hp
  obtain rfl := Option.some.inj hq
  obtain rfl := Option.some.inj hgrid
  have hthree := hinside 1 (by decide +kernel) (by decide) 3 3 rfl (by decide) (by decide)
  refine ⟨hcurrent, ⟨first, last, hstart, hstop, hlow, hthree.1, hthree.2, hhigh⟩, ?_⟩
  rw [hwhole rfl rfl (by decide +kernel) (by decide +kernel)]
  decide +kernel

end Rule

end FuzzyInference
