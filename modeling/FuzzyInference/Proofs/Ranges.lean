import FuzzyInference.Proofs.Accumulation
import FuzzyInference.Proofs.Degrees
import FuzzyInference.Proofs.Steps
import FuzzyInference.Proofs.Readiness
import FuzzyInference.Proofs.ReadSoFar
import FuzzyInference.Proofs.Rereading

/-!
# Outputs that stay in range

When all ordinates and weights lie between zero and one, levels and heights do, too, however often
the controller is evaluated.  Each crisp value is the default value or lies between the ends of the
terms.
-/

namespace FuzzyInference

open List (Forall₂)

/-! ## Grids of the present terms -/

section Grids

variable {α : Type}

/-- The abscissa where the term begins. -/
def Term.first? (t : Term α) : Option α := t.points.head?.map (·.x)

/-- The abscissa where the term ends. -/
def Term.last? (t : Term α) : Option α := t.points.getLast?.map (·.x)

/-- The abscissas where the terms begin. -/
def Variable.firsts (v : Variable α) : List α := v.terms.filterMap Term.first?

/-- The abscissas where the terms end. -/
def Variable.lasts (v : Variable α) : List α := v.terms.filterMap Term.last?

theorem Term.ends_of_domain {t : Term α} {d : α × α} (h : t.domain = .ok d) :
    t.first? = some d.1 ∧ t.last? = some d.2 := by
  unfold domain at h
  unfold first? last?
  cases hpoints : t.points with
  | nil =>
    rw [hpoints] at h
    cases h
  | cons first rest =>
    rw [hpoints] at h
    rw [← Except.ok.inj h, List.getLast?_cons, ← List.getLastD_eq_getLast?]
    exact ⟨rfl, rfl⟩

theorem Variable.ends_of_domains {v : Variable α} {domains : List (α × α)}
    (h : v.terms.mapM Term.domain = .ok domains) :
    v.firsts = domains.map Prod.fst ∧ v.lasts = domains.map Prod.snd := by
  unfold firsts lasts
  rw [mapM_eq_ok] at h
  generalize v.terms = terms at h
  induction h with
  | nil => exact ⟨rfl, rfl⟩
  | cons hd _ ih =>
    obtain ⟨hfirst, hlast⟩ := Term.ends_of_domain hd
    rw [List.filterMap_cons_some hfirst, List.filterMap_cons_some hlast, ih.1, ih.2]
    exact ⟨rfl, rfl⟩

variable [Scalar α]

namespace OutputVariable

/-- The grid has the points, and the terms have the samples, that building the grid again would
give. -/
def Current (o : OutputVariable α) : Prop :=
  o.terms ≠ [] ∧ ∃ domains, o.terms.mapM Term.domain = .ok domains ∧
    o.grid.map (·.xs) = some (span domains o.resolution) ∧
    ∀ t ∈ o.terms, (span domains o.resolution).mapM (t.degree .total) = .ok t.samples

theorem Current.points_ne_nil {o : OutputVariable α} (ho : o.Current) {t : Term α}
    (ht : t ∈ o.terms) : t.points ≠ [] := by
  obtain ⟨-, domains, hdomains, -⟩ := ho
  obtain ⟨d, -, hd⟩ := exists_mem_of_mapM_eq_ok hdomains ht
  rintro hnil
  unfold Term.domain at hd
  rw [hnil] at hd
  cases hd

theorem Current.of_eq {o o' : OutputVariable α} (ho : o.Current) (hterms : o'.terms = o.terms)
    (hresolution : o'.resolution = o.resolution)
    (hxs : o'.grid.map (·.xs) = o.grid.map (·.xs)) : o'.Current := by
  unfold Current
  rw [hterms, hresolution, hxs]
  exact ho

-- Sampling changes neither where a term begins and ends nor its degrees.
theorem forall₂_domain_of_sampled {terms terms' : List (Term α)} {xs : List α}
    {domains : List (α × α)} (hdomains : Forall₂ (fun t d => t.domain = .ok d) terms domains)
    (hsampled : Forall₂ (fun t t' => t.sampleOn xs = .ok t') terms terms') :
    Forall₂ (fun t d => t.domain = .ok d) terms' domains := by
  induction hsampled generalizing domains with
  | nil => exact hdomains
  | cons ht _ ih =>
    obtain ⟨d, rest, hd, hrest, rfl⟩ := List.forall₂_cons_left_iff.mp hdomains
    obtain ⟨samples, -, rfl⟩ := Term.sampleOn_eq_ok.mp ht
    exact .cons hd (ih hrest)

theorem current_of_discretize {o o' : OutputVariable α} (h : o.discretize = .ok o') :
    o'.Current := by
  refine ⟨(isDiscretized_of_discretize h).1, ?_⟩
  obtain ⟨-, domains, terms, hdomains, hsampled, rfl⟩ := discretize_eq_ok.mp h
  refine ⟨domains, mapM_eq_ok.mpr (forall₂_domain_of_sampled (mapM_eq_ok.mp hdomains)
    (mapM_eq_ok.mp hsampled)), rfl, fun t ht => ?_⟩
  obtain ⟨t₀, -, hsample⟩ := mem_of_mapM_eq_ok hsampled ht
  obtain ⟨samples, hsamples, rfl⟩ := Term.sampleOn_eq_ok.mp hsample
  exact hsamples

end OutputVariable

end Grids

-- The points of a grid lie between the least beginning and the greatest end of a term.
theorem OutputVariable.exists_span {domains : List (Rat × Rat)} (h : domains ≠ []) :
    ∃ low high, IsLeast {x | x ∈ domains.map Prod.fst} low ∧
      IsGreatest {x | x ∈ domains.map Prod.snd} high ∧
      ∀ count, span domains count = Scalar.spaced low high count := by
  cases domains with
  | nil => exact absurd rfl h
  | cons d rest =>
    exact ⟨_, _, Scalar.isLeast_least d.1 (rest.map Prod.fst),
      Scalar.isGreatest_greatest d.2 (rest.map Prod.snd), fun _ => rfl⟩

/-- The grid is spaced between the least beginning and the greatest end of a term. -/
theorem OutputVariable.Current.exists_spaced {o : OutputVariable Rat} (ho : o.Current) :
    ∃ low high grid, IsLeast {x | x ∈ o.firsts} low ∧ IsGreatest {x | x ∈ o.lasts} high ∧
      o.grid = some grid ∧ grid.xs = Scalar.spaced low high o.resolution ∧
      ∀ t ∈ o.terms, grid.xs.mapM (t.degree .total) = .ok t.samples := by
  obtain ⟨hterms, domains, hdomains, hxs, hsamples⟩ := ho
  have hne := Term.domains_ne_nil hterms hdomains
  obtain ⟨low, high, hlow, hhigh, hspan⟩ := exists_span hne
  obtain ⟨hfirsts, hlasts⟩ := Variable.ends_of_domains hdomains
  obtain ⟨grid, hgrid, hspaced⟩ := Option.map_eq_some_iff.mp hxs
  refine ⟨low, high, grid, hfirsts ▸ hlow, hlasts ▸ hhigh, hgrid, hspaced.trans (hspan _), ?_⟩
  rw [hspaced]
  exact hsamples

theorem OutputVariable.Current.exists_ends {o : OutputVariable Rat} (ho : o.Current) :
    ∃ low high, IsLeast {x | x ∈ o.firsts} low ∧ IsGreatest {x | x ∈ o.lasts} high ∧
      ∀ grid, o.grid = some grid →
        grid.xs.length = o.resolution ∧ ∀ x ∈ grid.xs, x ∈ Set.uIcc low high := by
  obtain ⟨low, high, grid', hlow, hhigh, hgrid', hxs, -⟩ := ho.exists_spaced
  refine ⟨low, high, hlow, hhigh, fun grid hgrid => ?_⟩
  obtain rfl := Option.some.inj (hgrid'.symm.trans hgrid)
  rw [hxs]
  exact ⟨Scalar.length_spaced low high o.resolution, fun x => Scalar.mem_uIcc_of_mem_spaced⟩

/-- A term whose points are sorted does not end before it begins. -/
theorem Term.first_le_last {t : Term Rat} (ht : Point.Sorted t.points) {a b : Rat}
    (ha : t.first? = some a) (hb : t.last? = some b) : a ≤ b := by
  unfold first? at ha
  unfold last? at hb
  cases hpoints : t.points with
  | nil =>
    rw [hpoints] at ha
    cases ha
  | cons first rest =>
    rw [hpoints] at ha hb ht
    obtain ⟨last, hlast, rfl⟩ := Option.map_eq_some_iff.mp hb
    rw [← Option.some.inj ha]
    rcases List.mem_cons.mp (List.mem_of_getLast? hlast) with rfl | hmem
    · exact le_rfl
    · exact not_lt.mp ((List.pairwise_cons.mp ht).1 last hmem)

theorem Variable.ends_le {v : Variable Rat} (hsorted : ∀ t ∈ v.terms, Point.Sorted t.points)
    {domains : List (Rat × Rat)} (hdomains : v.terms.mapM Term.domain = .ok domains)
    (hterms : v.terms ≠ []) {low high : Rat} (hlow : IsLeast {x | x ∈ v.firsts} low)
    (hhigh : IsGreatest {x | x ∈ v.lasts} high) : low ≤ high := by
  obtain ⟨t, ht⟩ := List.exists_mem_of_ne_nil _ hterms
  obtain ⟨d, hd, hdomain⟩ := exists_mem_of_mapM_eq_ok hdomains ht
  obtain ⟨hfirst, hlast⟩ := Term.ends_of_domain hdomain
  calc low ≤ d.1 := hlow.2 (List.mem_filterMap.mpr ⟨t, ht, hfirst⟩)
    _ ≤ d.2 := Term.first_le_last (hsorted t ht) hfirst hlast
    _ ≤ high := hhigh.2 (List.mem_filterMap.mpr ⟨t, ht, hlast⟩)

/-! ## Crisp values -/

namespace OutputVariable

variable {o : OutputVariable Rat} {grid : Grid Rat}

theorem centre_of_silent (hys : ∀ y ∈ grid.ys, y = 0) : (o.centre grid).1 = o.defaultValue := by
  have htotal : Scalar.sum grid.ys ≤ 0 := by
    rw [Scalar.sum_rat, List.sum_eq_zero hys]
  unfold centre
  dsimp only
  rw [if_pos htotal]

theorem areaCentre_mem (hlength : grid.xs.length = grid.ys.length) (hys : grid.ys ≠ [])
    (total : Rat) : areaCentre grid total ∈ grid.xs := by
  have hplace : ((Scalar.runningSums grid.ys).findIdx? fun s =>
      decide (Scalar.half * total < s)).getD 0 < grid.xs.length := by
    cases hpassed : (Scalar.runningSums grid.ys).findIdx? fun s =>
        decide (Scalar.half * total < s) with
    | none =>
      rw [hlength]
      exact List.length_pos_of_ne_nil hys
    | some i =>
      rw [hlength, ← Scalar.length_runningSums]
      exact (List.findIdx?_eq_some_iff_getElem.mp hpassed).1
  unfold areaCentre
  dsimp only
  rw [List.getD_eq_getElem?_getD, List.getElem?_eq_getElem hplace, Option.getD_some]
  exact List.getElem_mem hplace

/-- The crisp value of heights that are not all zero lies where the points of the grid lie. -/
theorem centre_mem {a b : Rat} (hlength : grid.xs.length = grid.ys.length)
    (hxs : ∀ x ∈ grid.xs, x ∈ Set.uIcc a b) (hys : ∀ y ∈ grid.ys, IsDegree y)
    (hmass : ∃ y ∈ grid.ys, y ≠ 0) : (o.centre grid).1 ∈ Set.uIcc a b := by
  obtain ⟨y, hy, hne⟩ := hmass
  have hnonneg : ∀ y ∈ grid.ys, 0 ≤ y := fun y hy => (hys y hy).1
  have htotal : 0 < grid.ys.sum :=
    lt_of_lt_of_le (lt_of_le_of_ne (hnonneg y hy) hne.symm) (List.single_le_sum hnonneg y hy)
  have hgravity : gravityCentre grid (Scalar.sum grid.ys) ∈ Set.uIcc a b := by
    unfold gravityCentre
    rw [Scalar.sum_rat, Scalar.sum_rat]
    exact Scalar.average_mem hlength hxs hnonneg htotal
  unfold centre
  dsimp only
  rw [if_neg (by rw [Scalar.sum_rat]; exact not_le.mpr htotal)]
  split
  · exact hgravity
  · exact hgravity
  · exact hxs _ (areaCentre_mem hlength (List.ne_nil_of_mem hy) _)

/-! ## Heights -/

/-- The samples of the terms and the heights of the grid are degrees. -/
def Normal (o : OutputVariable Rat) : Prop :=
  (∀ t ∈ o.terms, ∀ s ∈ t.samples, IsDegree s) ∧
    ∀ grid, o.grid = some grid → ∀ y ∈ grid.ys, IsDegree y

theorem Current.isDegree_sample (ho : o.Current) (hterms : ∀ t ∈ o.terms, t.Normal) :
    ∀ t ∈ o.terms, ∀ s ∈ t.samples, IsDegree s := by
  obtain ⟨-, domains, -, -, hsamples⟩ := ho
  intro t ht s hs
  obtain ⟨x, -, hx⟩ := mem_of_mapM_eq_ok (hsamples t ht) hs
  exact (hterms t ht).isDegree hx

-- Clearing the accumulated set leaves heights of zero.
theorem normal_of_prepare {o' : OutputVariable Rat}
    (hsamples : ∀ t ∈ o.terms, ∀ s ∈ t.samples, IsDegree s)
    (h : Controller.prepare o = .ok o') : o'.Normal := by
  obtain ⟨-, grid, -, rfl⟩ := Controller.prepare_eq_ok.mp h
  refine ⟨hsamples, fun cleared hcleared y hy => ?_⟩
  rw [← Option.some.inj hcleared] at hy
  obtain ⟨_, -, rfl⟩ := List.mem_map.mp hy
  exact isDegree_zero

theorem Normal.accumulate {operators : Operators} {r : Rule Rat} {o' : OutputVariable Rat}
    (ho : o.Normal) (hlevel : IsDegree r.level) (h : r.accumulate operators o = .ok o') :
    o'.Normal := by
  obtain ⟨first, last, t, grid, -, -, ht, hgrid, rfl⟩ := Rule.accumulate_eq_ok.mp h
  refine ⟨ho.1, fun raised hraised y hy => ?_⟩
  rw [← Option.some.inj hraised] at hy
  -- a cell keeps its height, or it gets the combination of its height with a sample
  obtain ⟨j, hj⟩ := List.mem_iff_getElem?.mp hy
  rw [Grid.getElem?_overlay] at hj
  obtain ⟨s, hs, hj⟩ := Option.bind_eq_some_iff.mp hj
  obtain ⟨y₀, hy₀, rfl⟩ := Option.map_eq_some_iff.mp hj
  have hsample : IsDegree s := ho.1 t (List.mem_of_getElem? (Variable.term_eq_ok.mp ht).2) s
    (List.mem_of_getElem? hs)
  have hheight : IsDegree y₀ := ho.2 grid hgrid y₀ (List.mem_of_getElem? hy₀)
  split
  · exact operators.accumulation.isDegree_apply
      (operators.activation.isDegree_apply hlevel hsample) hheight
  · exact hheight

end OutputVariable

theorem Action.forall_of_changeFirst {ρ : Type} {found : ρ → Bool} {missing : Fault}
    {f : ρ → Except Fault ρ} {P : ρ → Prop} {xs ys : List ρ} (hf : ∀ x y, P x → f x = .ok y → P y)
    (h : changeFirst found missing f xs = .ok ys) (hxs : ∀ x ∈ xs, P x) : ∀ y ∈ ys, P y := by
  induction xs generalizing ys with
  | nil => cases h
  | cons x xs ih =>
    obtain ⟨hx, hrest⟩ := List.forall_mem_cons.mp hxs
    rw [changeFirst] at h
    split at h
    · obtain ⟨y, hy, rfl⟩ := map_eq_ok.mp h
      exact List.forall_mem_cons.mpr ⟨hf x y hx hy, hrest⟩
    · obtain ⟨zs, hzs, rfl⟩ := map_eq_ok.mp h
      exact List.forall_mem_cons.mpr ⟨hx, ih hzs hrest⟩

/-- Concluding rules whose levels are degrees keeps heights degrees. -/
theorem Rule.normal_of_foldlM_conclude {operators : Operators} {rules : List (Rule Rat)}
    {outputs outputs' : List (OutputVariable Rat)} (hlevels : ∀ r ∈ rules, IsDegree r.level)
    (houtputs : ∀ o ∈ outputs, o.Normal)
    (h : rules.foldlM (conclude operators) outputs = .ok outputs') : ∀ o ∈ outputs', o.Normal := by
  induction rules generalizing outputs with
  | nil => rwa [← Except.ok.inj h]
  | cons r rules ih =>
    obtain ⟨hr, hrules⟩ := List.forall_mem_cons.mp hlevels
    obtain ⟨outputs₁, hfirst, hrest⟩ := bind_eq_ok.mp h
    refine ih hrules ?_ hrest
    exact Action.forall_of_changeFirst (fun _ _ ho haccumulate => ho.accumulate hr haccumulate)
      hfirst houtputs

end FuzzyInference
