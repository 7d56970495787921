import FuzzyInference.Proofs.Slices

/-!
# Places and indices on a grid

Building the grid lays its points at equal distances between the ends of the terms and samples every
term there.  Looking up the index of a place turns this around: over the rationals it finds each
grid point again, and a place off the grid belongs to a cell, too.  Each cell begins a billionth of
its width before its grid point.
-/

namespace FuzzyInference

open List (Forall₂)

namespace Scalar

variable {a step x : Rat}

theorem billionth_eq : (billionth : Rat) = 1 / 10 ^ 9 := by
  decide +kernel

/-- The cell of a place is the one that encloses it when it is moved by the slack. -/
theorem cellOf_eq_iff (hstep : 0 < step) {i : Int} :
    cellOf a step x = i ↔
      a + i * step ≤ x + step / 10 ^ 9 ∧ x + step / 10 ^ 9 < a + i * step + step := by
  have hshare : (x - a) / step + billionth = (x + step / 10 ^ 9 - a) / step := by
    rw [billionth_eq]
    field_simp
    ring
  unfold cellOf
  rw [if_neg hstep.ne', Int.floor_eq_iff, hshare, le_div_iff₀ hstep, div_lt_iff₀ hstep, add_mul,
    one_mul, le_sub_iff_add_le', sub_lt_iff_lt_add', add_assoc]

theorem cellOf_point (hstep : 0 < step) (i : Nat) : cellOf a step (a + i * step) = i :=
  le_antisymm (cellOf_le hstep.le le_rfl) (le_cellOf hstep le_rfl)

end Scalar

namespace OutputVariable

variable {o o' : OutputVariable Rat} {grid : Grid Rat} {low high : Rat}

/-! ## Points and samples -/

/-- The grid that `o'` has got, and the samples of its terms, are those that `o` asks for. -/
structure Laid (o o' : OutputVariable Rat) (grid : Grid Rat) (low high step : Rat) : Prop where
  resolution_eq : o'.resolution = o.resolution
  grid_eq : o'.grid = some grid
  delta_eq : o'.delta = .ok step
  isLeast : IsLeast {x | x ∈ o.firsts} low
  isGreatest : IsGreatest {x | x ∈ o.lasts} high
  length_xs : grid.xs.length = o.resolution
  head?_xs : grid.xs.head? = some low
  getLast?_xs : 2 ≤ o.resolution → grid.xs.getLast? = some high
  getElem?_xs : ∀ i < o.resolution, grid.xs[i]? = some (low + i * step)
  ys_eq : grid.ys = List.replicate o.resolution 0
  sampled : Forall₂ (fun t t' => t'.name = t.name ∧ t'.points = t.points ∧
    Forall₂ (fun x s => ∀ division, t.degree division x = .ok s) grid.xs t'.samples)
    o.terms o'.terms

theorem degrees_of_sampleOn {t t' : Term Rat} {xs : List Rat} (h : t.sampleOn xs = .ok t') :
    t'.name = t.name ∧ t'.points = t.points ∧
      Forall₂ (fun x s => ∀ division, t.degree division x = .ok s) xs t'.samples := by
  obtain ⟨samples, hsamples, rfl⟩ := Term.sampleOn_eq_ok.mp h
  refine ⟨rfl, rfl, (mapM_eq_ok.mp hsamples).imp fun x s hx division => ?_⟩
  rwa [Term.degree_division (fun p _ => Scalar.isNaN_rat p.x) (Scalar.isNaN_rat x)]

theorem exists_laid_of_discretize (hresolution : 0 < o.resolution) (h : o.discretize = .ok o') :
    ∃ grid low high, grid.xs = Scalar.spaced low high o'.resolution ∧
      o.Laid o' grid low high (Scalar.spacing low high o'.resolution) := by
  obtain ⟨hterms, domains, terms, hdomains, hsampled, rfl⟩ := discretize_eq_ok.mp h
  obtain ⟨low, high, hlow, hhigh, hspan⟩ := exists_span (Term.domains_ne_nil hterms hdomains)
  obtain ⟨hfirsts, hlasts⟩ := Variable.ends_of_domains hdomains
  have hxs := hspan o.resolution
  exact ⟨_, low, high, hxs, {
    resolution_eq := rfl
    grid_eq := rfl
    delta_eq := delta_of_spaced rfl hxs
    isLeast := hfirsts ▸ hlow
    isGreatest := hlasts ▸ hhigh
    length_xs := (congrArg List.length hxs).trans (Scalar.length_spaced low high _)
    head?_xs := (congrArg List.head? hxs).trans (Scalar.head?_spaced hresolution)
    getLast?_xs := fun hn => (congrArg List.getLast? hxs).trans (Scalar.getLast?_spaced hn)
    getElem?_xs := fun i hi => (congrArg (·[i]?) hxs).trans (Scalar.getElem?_spaced hi)
    ys_eq := rfl
    sampled := (mapM_eq_ok.mp hsampled).imp fun _ _ => degrees_of_sampleOn }⟩

/-! ## Indices -/

/-- Indices count the distances `step` from `low` on, and so they find the grid points again. -/
structure Indexed (o : OutputVariable Rat) (low step : Rat) : Prop where
  index_gridX : ∀ i : Nat, i < o.resolution → ∃ x, o.gridX i = .ok x ∧ o.indexOf x = .ok i
  index_mono : ∀ x y, x ≤ y → ∃ j k, o.indexOf x = .ok j ∧ o.indexOf y = .ok k ∧ j ≤ k
  index_iff : ∀ x (i : Int), o.indexOf x = .ok i ↔
    low + i * step ≤ x + step / 10 ^ 9 ∧ x + step / 10 ^ 9 < low + i * step + step

theorem gridX_eq_ok {i : Nat} {x : Rat} (hgrid : o.grid = some grid) (hi : i < o.resolution)
    (hx : grid.xs[i]? = some x) : o.gridX i = .ok x := by
  unfold gridX cell
  rw [grid?_eq_ok.mpr hgrid]
  dsimp only [bind, Except.bind]
  rw [if_pos ⟨Int.natCast_nonneg i, Int.ofNat_lt.mpr hi⟩]
  show Except.ok (grid.xs.getD i 0) = .ok x
  rw [List.getD_eq_getElem?_getD, hx, Option.getD_some]

theorem indexed_of_spaced (hgrid : o.grid = some grid)
    (hxs : grid.xs = Scalar.spaced low high o.resolution) (hresolution : 0 < o.resolution)
    (hstep : 0 < Scalar.spacing low high o.resolution) :
    o.Indexed low (Scalar.spacing low high o.resolution) := by
  have hindex := indexOf_of_spaced hgrid hxs hresolution
  refine ⟨fun i hi => ?_, fun x y hxy => ?_, fun x i => ?_⟩
  · refine ⟨_, gridX_eq_ok hgrid hi (hxs ▸ Scalar.getElem?_spaced hi), ?_⟩
    rw [hindex, Scalar.cellOf_point hstep]
  · exact ⟨_, _, hindex x, hindex y, Scalar.cellOf_mono hstep.le hxy⟩
  · rw [hindex, Except.ok.injEq, Scalar.cellOf_eq_iff hstep]

/-- An output whose terms have points gets a grid of equally distant points from the least beginning
of a term to the greatest end, with samples of every term and heights of zero.  Where neighbouring
points are apart, the index of a grid point is its number, indices grow with the places, and an index
belongs to the places from just before its point to just before the next, on the grid or off it. -/
theorem discretize_indexed (hterms : o.terms ≠ []) (hpoints : ∀ t ∈ o.terms, t.points ≠ [])
    (hresolution : 0 < o.resolution) :
    ∃ o' grid low high step, o.discretize = .ok o' ∧ o.Laid o' grid low high step ∧
      (0 < step → o'.Indexed low step) := by
  obtain ⟨o', h⟩ := exists_discretize hterms hpoints
  obtain ⟨grid, low, high, hxs, hlaid⟩ := exists_laid_of_discretize hresolution h
  refine ⟨o', grid, low, high, _, h, hlaid, indexed_of_spaced hlaid.grid_eq hxs ?_⟩
  rwa [hlaid.resolution_eq]

theorem discretize_indexed_lamp : ∃ o', Rule.brightness.discretize = .ok o' ∧ o'.delta = .ok 1 ∧
    o'.indexOf (-3) = .ok (-3) ∧ o'.indexOf (2 - 1 / 10 ^ 10) = .ok 2 ∧
    o'.indexOf (2 - 1 / 10 ^ 8) = .ok 1 := by
  obtain ⟨o', grid, low, high, step, h, hlaid, hindexed⟩ :=
    discretize_indexed (o := Rule.brightness) (by decide) (by decide) (by decide)
  have hbuilt : Rule.brightness.discretize =
      .ok (Rule.brightness.withHeights [0, 0, 0, 0, 0]) := by
    decide +kernel
  obtain rfl := Except.ok.inj (hbuilt.symm.trans h)
  obtain rfl := Option.some.inj hlaid.grid_eq
  obtain rfl : (0 : Rat) = low := Option.some.inj hlaid.head?_xs
  have hdelta : (Rule.brightness.withHeights [0, 0, 0, 0, 0]).delta = .ok 1 := by decide +kernel
  obtain rfl := Except.ok.inj (hdelta.symm.trans hlaid.delta_eq)
  have hindex := (hindexed one_pos).index_iff
  refine ⟨_, h, hdelta, (hindex _ _).mpr ?_, (hindex _ _).mpr ?_, (hindex _ _).mpr ?_⟩
  · decide +kernel
  · decide +kernel
  · decide +kernel

end OutputVariable

end FuzzyInference
