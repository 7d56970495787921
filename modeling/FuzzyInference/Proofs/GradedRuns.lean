import FuzzyInference.Proofs.GridSizes
import FuzzyInference.Proofs.Ranges

/-!
# Runs of controllers with degrees

Ordinates and weights between zero and one stay so while a controller is read, evaluated and
configured, and grids stay those of the present terms.  So every evaluation on the way has levels,
heights and crisp values in range.
-/

namespace FuzzyInference

open OutputVariable (frame SameFrame)

/-! ## Controllers with degrees -/

/-- The ordinates of the term and its present degree are degrees. -/
def Term.Graded (t : Term Rat) : Prop := t.Normal ∧ IsDegree t.dom

/-- The ordinates of the terms are degrees, and the grid has been built for these terms. -/
structure OutputVariable.Graded (o : OutputVariable Rat) : Prop where
  current : o.Current
  gridded : o.Gridded
  normal : ∀ t ∈ o.terms, t.Normal

/-- All ordinates, all present degrees of inputs and all weights are degrees, and every grid has
been built for the present terms. -/
structure Controller.Graded (c : Controller Rat) : Prop where
  inputs : ∀ v ∈ c.inputs, ∀ t ∈ v.terms, t.Graded
  outputs : ∀ o ∈ c.outputs, o.Graded
  weights : ∀ r ∈ c.rules, IsDegree r.conclusion.weight

namespace OutputVariable

theorem graded_of_discretize {o o' : OutputVariable Rat} (hnormal : ∀ t ∈ o.terms, t.Normal)
    (h : o.discretize = .ok o') : o'.Graded := by
  refine ⟨current_of_discretize h, gridded_discretize h, ?_⟩
  obtain ⟨-, domains, terms, -, hsampled, rfl⟩ := discretize_eq_ok.mp h
  intro t ht
  obtain ⟨t₀, ht₀, hsample⟩ := mem_of_mapM_eq_ok hsampled ht
  obtain ⟨samples, -, rfl⟩ := Term.sampleOn_eq_ok.mp hsample
  exact hnormal t₀ ht₀

theorem Graded.of_eq {o o' : OutputVariable Rat} (ho : o.Graded) (hgridded : o'.Gridded)
    (hterms : o'.terms = o.terms) (hresolution : o'.resolution = o.resolution)
    (hxs : o'.grid.map (·.xs) = o.grid.map (·.xs)) : o'.Graded :=
  ⟨ho.current.of_eq hterms hresolution hxs, hgridded, hterms ▸ ho.normal⟩

theorem xs_stem (o : OutputVariable Rat) : o.stem.grid.map (·.xs) = o.grid.map (·.xs) :=
  Option.map_map _ _ o.grid

theorem Graded.of_stem {o o' : OutputVariable Rat} (ho : o.Graded) (h : o'.stem = o.stem) :
    o'.Graded := by
  have hgridded : o'.stem.Gridded := h ▸ gridded_fresh.mpr ho.gridded
  refine ho.of_eq (gridded_fresh.mp hgridded) (congrArg (·.terms) h) (congrArg (·.resolution) h) ?_
  rw [← xs_stem, h, xs_stem]

theorem Graded.of_frame {o o' : OutputVariable Rat} (ho : o.Graded) (hgridded : o'.Gridded)
    (h : o'.frame = o.frame) : o'.Graded := by
  refine ho.of_eq hgridded (congrArg (·.terms) h) (congrArg (·.resolution) h) ?_
  rw [← xs_frame, h, xs_frame]

end OutputVariable

namespace Controller

/-! ## Steps -/

/-- If all numbers of `c` that inference combines are degrees, then so are those of `c'`. -/
def KeepsGraded (c c' : Controller Rat) : Prop := c.Graded → c'.Graded

theorem KeepsGraded.refl (c : Controller Rat) : c.KeepsGraded c := id

theorem KeepsGraded.trans {c d e : Controller Rat} (h : c.KeepsGraded d) (h' : d.KeepsGraded e) :
    c.KeepsGraded e := h' ∘ h

theorem keepsGraded_fuzzify (division : Division) (name : String) (x : Rat) :
    (fuzzify division name x).Moves KeepsGraded := by
  have hterm : (Action.change (Term.fuzzify · division x)).Moves
      fun t t' => t.Graded → t'.Graded := by
    refine Action.moves_change (fun _ => id) fun t t' h ht => ?_
    obtain ⟨dom, hdom, rfl⟩ := map_eq_ok.mp h
    exact ⟨ht.1, ht.1.isDegree hdom⟩
  have hvariable : (Variable.fuzzify division x).Moves
      fun v v' => (∀ t ∈ v.terms, t.Graded) → ∀ t ∈ v'.terms, t.Graded :=
    Action.moves_within (Action.moves_onEach (fun _ => id) hterm) fun _ _ => forall_of_forall₂
  exact Action.moves_within (Action.moves_onFirst (fun _ => id) hvariable) fun c inputs h hc =>
    { hc with inputs := forall_of_forall₂ h hc.inputs }

theorem keepsGraded_evaluateRules : (evaluateRules (α := Rat)).Moves KeepsGraded := by
  intro c hc
  obtain ⟨hinputs, hframes⟩ := sameFrames_evaluateRules c
  have hgridded := keepsAll_gridded_evaluateRules c fun o ho => (hc.outputs o ho).gridded
  have hrules := congrArg Outline.rules (alike_evaluateRules c).2
  constructor
  · rw [hinputs]
    exact hc.inputs
  · intro o ho
    have hmem : o.frame ∈ c.outputs.map frame := hframes ▸ List.mem_map_of_mem ho
    obtain ⟨o₀, ho₀, hsame⟩ := List.mem_map.mp hmem
    exact (hc.outputs o₀ ho₀).of_frame (hgridded o ho) hsame.symm
  · refine forall_of_map_eq (fun r r' (h : r.outline = r'.outline) hr => ?_) hrules hc.weights
    have hweight : r.conclusion.weight = r'.conclusion.weight := congrArg (fun p => p.2.weight) h
    exact hweight ▸ hr

theorem keepsGraded_evaluate (division : Division) (values : List (String × Rat)) :
    (evaluate division values).Moves KeepsGraded :=
  moves_evaluate KeepsGraded.refl (fun _ _ _ => KeepsGraded.trans) (keepsGraded_fuzzify division)
    keepsGraded_evaluateRules values

end Controller

section Rules

variable {α : Type}

/-- The rules that a step brings in. -/
def Step.rules : Step α → List (Rule α)
  | .addRule r => [r]
  | .setRules rules => rules
  | _ => []

variable [Scalar α]

namespace Controller

-- A step that neither reads nor evaluates has its rules from before or brings them in.
theorem mem_rules_of_step {step : Step α} (h : step.Sets) :
    step.run.Moves fun c c' => ∀ r ∈ c'.rules, r ∈ c.rules ∨ r ∈ step.rules := by
  cases step with
  | fuzzify name r => exact h.elim
  | evaluate division values => exact h.elim
  | evaluateRules => exact h.elim
  | addRule r =>
    intro c
    show ∀ s ∈ (addRule r c).state.rules, s ∈ c.rules ∨ s ∈ [r]
    unfold addRule
    split
    · exact fun _ => .inl
    · split
      · exact fun _ => .inl
      · exact fun _ => List.mem_append.mp
  | setRules rules =>
    exact moves_replaceRules (fun _ _ => .inl) fun _ _ _ hr =>
      .inr ((sublist_foldl_withRule [] rules).subset hr)
  | clearRules => exact fun c r hr => absurd hr List.not_mem_nil
  | setMethod output value => exact fun c r => .inl
  | setDefault output value => exact fun c r => .inl
  | setAnd _ | setOr _ | setActivation _ | setAccumulation _ =>
    exact Action.moves_change_map (fun _ _ => .inl) fun _ _ _ => .inl

end Controller

end Rules

namespace Controller

variable {c d : Controller Rat}

theorem Graded.configured (hc : c.Graded) (h : c.Configured d)
    (hweights : ∀ r ∈ d.rules, IsDegree r.conclusion.weight) : d.Graded := by
  refine ⟨h.inputs ▸ hc.inputs, fun o ho => ?_, hweights⟩
  have hmem : o.stem ∈ c.outputs.map OutputVariable.stem := h.outputs ▸ List.mem_map_of_mem ho
  obtain ⟨o₀, ho₀, hsame⟩ := List.mem_map.mp hmem
  exact (hc.outputs o₀ ho₀).of_stem hsame.symm

/-- A step that brings in no weights but degrees keeps the numbers degrees, also where it fails. -/
theorem keepsGraded_step {step : Step Rat}
    (hstep : ∀ r ∈ step.rules, IsDegree r.conclusion.weight) : step.run.Moves KeepsGraded := by
  have hsets (h : step.Sets) : step.run.Moves KeepsGraded := by
    intro c hc
    refine hc.configured (configured_step h c) fun r hr => ?_
    exact (mem_rules_of_step h c r hr).elim (hc.weights r) (hstep r)
  cases step with
  | fuzzify name r => exact keepsGraded_fuzzify r.division name r.value
  | evaluate division values =>
    exact Action.moves_bind (R := KeepsGraded) (fun _ _ _ => KeepsGraded.trans)
      (keepsGraded_evaluate division values) fun _ => KeepsGraded.refl
  | evaluateRules => exact keepsGraded_evaluateRules
  | _ => exact hsets trivial

/-- The controller after some steps, of which any may fail. -/
def afterSteps (c : Controller Rat) (steps : List (Step Rat)) : Controller Rat :=
  steps.foldl (fun c step => (step.run c).state) c

theorem Graded.afterSteps (hc : c.Graded) {steps : List (Step Rat)}
    (hsteps : ∀ step ∈ steps, ∀ r ∈ step.rules, IsDegree r.conclusion.weight) :
    (c.afterSteps steps).Graded := by
  induction steps generalizing c with
  | nil => exact hc
  | cons step steps ih =>
    obtain ⟨hstep, hrest⟩ := List.forall_mem_cons.mp hsteps
    exact ih (keepsGraded_step hstep c hc) hrest

end Controller

/-! ## Evaluations -/

/-- The heights of the grid are degrees, and the crisp value is the default value where all of them
are zero, and lies between the ends of the terms elsewhere. -/
def OutputVariable.InRange (o : OutputVariable Rat) : Prop :=
  ∃ grid low high, o.grid = some grid ∧ (∀ y ∈ grid.ys, IsDegree y) ∧
    IsLeast {x | x ∈ o.firsts} low ∧ IsGreatest {x | x ∈ o.lasts} high ∧
    ((∀ t ∈ o.terms, Point.Sorted t.points) → low ≤ high) ∧
    ((∀ y ∈ grid.ys, y = 0) → o.crisp = o.defaultValue) ∧
    ((∃ y ∈ grid.ys, y ≠ 0) → o.crisp ∈ Set.uIcc low high)

theorem OutputVariable.inRange_of_settle {o o' : OutputVariable Rat} (ho : o.Normal)
    (ho' : o'.Graded) (h : o.settle = .ok o') : o'.InRange := by
  obtain ⟨grid, hfound, rfl⟩ := map_eq_ok.mp h
  have hgrid : o.grid = some grid := grid?_eq_ok.mp hfound
  obtain ⟨low, high, hlow, hhigh, hplaces⟩ := ho'.current.exists_ends
  obtain ⟨hlength, hxs⟩ := hplaces grid hgrid
  have hlengths : grid.xs.length = grid.ys.length := hlength.trans (ho'.gridded grid hgrid).symm
  obtain ⟨hterms, domains, hdomains, -⟩ := ho'.current
  exact ⟨grid, low, high, hgrid, ho.2 grid hgrid, hlow, hhigh,
    fun hsorted => Variable.ends_le hsorted hdomains hterms hlow hhigh, centre_of_silent,
    centre_mem hlengths hxs (ho.2 grid hgrid)⟩

namespace Controller

variable {c d : Controller Rat}

theorem Graded.inRange (hc : c.Graded) (h : evaluateRules.Leads c d ()) :
    (∀ r ∈ d.rules, IsDegree r.level) ∧ ∀ o ∈ d.outputs, o.InRange := by
  have hd : d.Graded := h.state_eq ▸ keepsGraded_evaluateRules c hc
  obtain ⟨prepared, rules, concluded, outputs, hprepare, hactivate, hconclude, hsettle, rfl⟩ :=
    leads_evaluateRules.mp h
  have hlevels : ∀ r ∈ rules, IsDegree r.level := by
    intro r hr
    obtain ⟨r₀, hr₀, hactivated⟩ := mem_of_mapM_eq_ok hactivate hr
    exact Rule.isDegree_level (fun v hv t ht => (hc.inputs v hv t ht).2) (hc.weights r₀ hr₀)
      hactivated
  have hprepared : ∀ o ∈ prepared, o.Normal := by
    intro o ho
    obtain ⟨o₀, ho₀, hready⟩ := mem_of_mapM_eq_ok hprepare ho
    have ho₀ := hc.outputs o₀ ho₀
    exact OutputVariable.normal_of_prepare (ho₀.current.isDegree_sample ho₀.normal) hready
  have hconcluded := Rule.normal_of_foldlM_conclude hlevels hprepared hconclude
  refine ⟨hlevels, fun o ho => ?_⟩
  obtain ⟨o₀, ho₀, hsettled⟩ := mem_of_mapM_eq_ok hsettle ho
  exact OutputVariable.inRange_of_settle (hconcluded o₀ ho₀) (hd.outputs o ho) hsettled

/-- However a controller is read, evaluated and configured: if its ordinates, the present degrees of
its inputs and its weights lie between zero and one, and its grids are those of the present terms,
then an evaluation has such levels and heights, and each crisp value is the default value of an
empty set or lies between the ends of the terms. -/
theorem evaluate_inRange {steps : List (Step Rat)} {division : Division}
    {values crisp : List (String × Rat)} (hc : c.Graded)
    (hsteps : ∀ step ∈ steps, ∀ r ∈ step.rules, IsDegree r.conclusion.weight)
    (h : (evaluate division values).Leads (c.afterSteps steps) d crisp) :
    crisp = d.crispValues ∧ (∀ r ∈ d.rules, IsDegree r.level) ∧ ∀ o ∈ d.outputs, o.InRange := by
  obtain ⟨c₁, hread, hrules, hcrisp⟩ := leads_evaluate.mp h
  have hreadings : (Action.forEach (readingsOf division values) take).Moves KeepsGraded :=
    Action.moves_forEach KeepsGraded.refl (fun _ _ _ => KeepsGraded.trans) fun p _ =>
      keepsGraded_fuzzify p.2.division p.1 p.2.value
  have hc₁ : c₁.Graded := hread.state_eq ▸ hreadings _ (hc.afterSteps hsteps)
  exact ⟨hcrisp, hc₁.inRange hrules⟩

theorem graded_roomFan : roomFan.Graded := by
  have hspeed : fanSpeed.Graded := by
    refine ⟨⟨List.cons_ne_nil _ _, [(0, 1), (1, 3)], ?_, ?_, ?_⟩, ?_, ?_⟩
    · decide +kernel
    · decide +kernel
    · decide +kernel
    · exact gridded_roomFan fanSpeed (List.mem_singleton_self _)
    · unfold Term.Normal
      decide +kernel
  refine ⟨?_, List.forall_mem_singleton.mpr hspeed, ?_⟩
  · unfold Term.Graded Term.Normal
    decide +kernel
  · decide +kernel

theorem evaluate_inRange_roomFan :
    ∃ night crisp, (evaluate .total [("temperature", 4)]).Leads (roomFan.afterSteps roomDay)
      night crisp ∧ crisp = night.crispValues ∧ (∀ r ∈ night.rules, IsDegree r.level) ∧
      ∀ o ∈ night.outputs, o.InRange := by
  obtain ⟨crisp, hcrisp⟩ := exists_ok_of_toOption
    (x := (evaluate .total [("temperature", 4)] (roomFan.afterSteps roomDay)).answer)
    (by decide +kernel)
  have hnight := Action.leads_of_answer hcrisp
  exact ⟨_, crisp, hnight, evaluate_inRange graded_roomFan (by decide +kernel) hnight⟩

/-- A controller whose input was read before its term was flattened. -/
def flattened : Controller Rat := built "" [
  .addInput ⟨"x", [.ofPoints "a" [⟨0, 5⟩]]⟩,
  .addOutput "y" [.ofPoints "b" [⟨0, 1⟩]] (.integer 1) (.text "COG") (.real 0),
  .addRule (.is ⟨"x", 0, false⟩) ⟨"y", 0, 1⟩,
  .setActivation (.text "PROD"),
  .discretize,
  .fuzzify "x" 0,
  .onInput "x" (.onTerm 0 (.setPoints [⟨0, 1⟩]))]

-- Its input keeps the degree from before, which is none for the present ordinates.
theorem evaluate_flattened_outOfRange :
    flattened.Reachable ∧ (∀ v ∈ flattened.inputs, ∀ t ∈ v.terms, t.Normal) ∧
      (∀ o ∈ flattened.outputs, o.Graded) ∧
      (∀ r ∈ flattened.rules, IsDegree r.conclusion.weight) ∧
      ∃ d crisp, (evaluate .checked []).Leads flattened d crisp ∧
        (∃ r ∈ d.rules, ¬IsDegree r.level) ∧
        ∃ o ∈ d.outputs, ∃ y ∈ (o.grid.map Grid.ys).getD [], ¬IsDegree y := by
  obtain ⟨crisp, hcrisp⟩ := exists_ok_of_toOption
    (x := (evaluate .checked [] flattened).answer) (by decide +kernel)
  refine ⟨reachable_built "" _, ?_, ?_, by decide +kernel, _, crisp,
    Action.leads_of_answer hcrisp, by decide +kernel, by decide +kernel⟩
  · unfold Term.Normal
    decide +kernel
  · -- its only output has just been discretized
    let plain : OutputVariable Rat := ⟨⟨"y", [.ofPoints "b" [⟨0, 1⟩]]⟩, 0, 0, 1, .gravity, none⟩
    have hnormal : ∀ t ∈ plain.terms, t.Normal := by
      unfold Term.Normal
      decide +kernel
    have hbuilt : flattened.outputs.map .ok = [plain.discretize] := by decide +kernel
    intro o ho
    have hmem : Except.ok o ∈ [plain.discretize] := hbuilt ▸ List.mem_map_of_mem ho
    exact OutputVariable.graded_of_discretize hnormal (List.mem_singleton.mp hmem).symm

end Controller

end FuzzyInference
