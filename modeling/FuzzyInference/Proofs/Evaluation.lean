import FuzzyInference.Inference
import FuzzyInference.Proofs.Leads

/-!
# Evaluations that succeed

A successful evaluation clears the accumulated sets, activates the rules, lets each of them conclude
in turn, and turns every output into its crisp value.
-/

namespace FuzzyInference

variable {α : Type} [Scalar α] {operators : Operators}

omit [Scalar α] in
theorem OutputVariable.grid?_eq_ok {o : OutputVariable α} {grid : Grid α} :
    o.grid? = .ok grid ↔ o.grid = some grid := by
  unfold grid?
  cases o.grid with
  | none => simp
  | some grid' => simp

/-- An output is prepared where it is discretized: its grid gets heights of zero. -/
theorem Controller.prepare_eq_ok {o o' : OutputVariable α} :
    prepare o = .ok o' ↔ o.isDiscretized = true ∧ ∃ grid, o.grid = some grid ∧
      o' = { o with grid := some { grid with ys := grid.ys.map fun _ => 0 } } := by
  unfold prepare
  cases o.isDiscretized with
  | false => simp
  | true => simp [OutputVariable.reset, map_eq_ok, OutputVariable.grid?_eq_ok, eq_comm (a := o')]

namespace Rule

/-- A rule is accumulated where it has a start and a stop on a grid and a term to conclude: it
combines the samples of the term with the heights between the two. -/
theorem accumulate_eq_ok {r : Rule α} {o o' : OutputVariable α} :
    r.accumulate operators o = .ok o' ↔ ∃ first last t grid, r.start o = .ok first ∧
      r.stop o = .ok last ∧ o.term r.conclusion.term = .ok t ∧ o.grid = some grid ∧
      o' = { o with grid := some (grid.overlay (fun sample =>
        operators.accumulation.apply (operators.activation.apply r.level sample)) t.samples
        (clip o.resolution first) (clip o.resolution last)) } := by
  unfold accumulate
  constructor
  · intro h
    obtain ⟨first, hfirst, h⟩ := bind_eq_ok.mp h
    obtain ⟨last, hlast, h⟩ := bind_eq_ok.mp h
    obtain ⟨t, ht, h⟩ := bind_eq_ok.mp h
    obtain ⟨grid, hgrid, h⟩ := bind_eq_ok.mp h
    exact ⟨first, last, t, grid, hfirst, hlast, ht, OutputVariable.grid?_eq_ok.mp hgrid,
      (Except.ok.inj h).symm⟩
  · rintro ⟨first, last, t, grid, hfirst, hlast, ht, hgrid, rfl⟩
    rw [hfirst, hlast, ht, OutputVariable.grid?_eq_ok.mpr hgrid]
    rfl

/-- The outputs after the rule has been accumulated in the one that it concludes on. -/
def conclude (operators : Operators) (outputs : List (OutputVariable α)) (r : Rule α) :
    Except Fault (List (OutputVariable α)) :=
  Action.changeFirst (fun o => o.name == r.conclusion.name) (.unknownVariable r.conclusion.name)
    (r.accumulate operators) outputs

theorem leads_infer {inputs : List (Variable α)} {r r' : Rule α}
    {outputs outputs' : List (OutputVariable α)} :
    (infer operators inputs).Leads (r, outputs) (r', outputs') () ↔
      r.activate inputs operators.norm = .ok r' ∧ r'.conclude operators outputs = .ok outputs' := by
  unfold infer
  simp only [Action.leads_bind, Action.leads_within, Action.leads_look]
  constructor
  · rintro ⟨_, _, ⟨r₁, hactivate, rfl⟩, _, _, ⟨rfl, rfl⟩, outputs₁, hconclude, hstate⟩
    obtain ⟨rfl, rfl⟩ := Prod.mk.inj hstate
    exact ⟨Action.leads_change.mp hactivate,
      (Action.leads_onFirst fun _ _ => Action.leads_change).mp hconclude⟩
  · rintro ⟨hactivate, hconclude⟩
    exact ⟨_, _, ⟨r', Action.leads_change.mpr hactivate, rfl⟩, _, _, ⟨rfl, rfl⟩, outputs',
      (Action.leads_onFirst fun _ _ => Action.leads_change).mpr hconclude, rfl⟩

theorem leads_sweep_infer {inputs : List (Variable α)} {rules rules' : List (Rule α)}
    {outputs outputs' : List (OutputVariable α)} :
    (Action.sweep (infer operators inputs)).Leads (rules, outputs) (rules', outputs') () ↔
      rules.mapM (activate inputs operators.norm) = .ok rules' ∧
        rules'.foldlM (conclude operators) outputs = .ok outputs' := by
  -- on the rules: the sweep activates and concludes in turns, the right side in two passes
  induction rules generalizing outputs rules' with
  | nil =>
    rw [Action.leads_sweep_nil]
    constructor
    · rintro ⟨rfl, rfl⟩
      exact ⟨rfl, rfl⟩
    · rintro ⟨hactivate, hconclude⟩
      obtain rfl := Except.ok.inj hactivate
      exact ⟨rfl, (Except.ok.inj hconclude).symm⟩
  | cons r rules ih =>
    rw [Action.leads_sweep_cons, mapM_eq_ok, List.forall₂_cons_left_iff]
    constructor
    · rintro ⟨r', rest, outputs₁, hfirst, hrest, rfl⟩
      obtain ⟨hactivate, hconclude⟩ := leads_infer.mp hfirst
      obtain ⟨hactivates, hconcludes⟩ := ih.mp hrest
      exact ⟨⟨r', rest, hactivate, mapM_eq_ok.mp hactivates, rfl⟩,
        by rw [List.foldlM_cons, hconclude]; exact hconcludes⟩
    · rintro ⟨⟨r', rest, hactivate, hactivates, rfl⟩, hconcludes⟩
      rw [List.foldlM_cons, bind_eq_ok] at hconcludes
      obtain ⟨outputs₁, hconclude, hconcludes⟩ := hconcludes
      exact ⟨r', rest, outputs₁, leads_infer.mpr ⟨hactivate, hconclude⟩,
        ih.mpr ⟨mapM_eq_ok.mpr hactivates, hconcludes⟩, rfl⟩

end Rule

theorem OutputVariable.defuzzify_of_grid {o : OutputVariable α} {grid : Grid α}
    (h : o.grid? = .ok grid) : o.defuzzify = ⟨{ o with crisp := (o.centre grid).1 },
      if (o.centre grid).2 then [] else [.noMass o.name (Scalar.text o.defaultValue)],
      .ok (o.centre grid).1⟩ := by
  unfold defuzzify
  rw [h]

/-- The variable with the crisp value of its accumulated set. -/
def OutputVariable.settle (o : OutputVariable α) : Except Fault (OutputVariable α) :=
  o.grid?.map fun grid => { o with crisp := (o.centre grid).1 }

theorem OutputVariable.leads_defuzzify {o o' : OutputVariable α} :
    (do let _ ← OutputVariable.defuzzify : Action (OutputVariable α) Unit).Leads o o' () ↔
      o.settle = .ok o' := by
  rw [Action.leads_bind]
  constructor
  · rintro ⟨t, b, ⟨notices, h⟩, hgive⟩
    obtain ⟨rfl, -⟩ := Action.leads_give.mp hgive
    unfold defuzzify at h
    split at h
    · obtain ⟨-, -, hanswer⟩ := Outcome.mk.inj h
      cases hanswer
    · rename_i grid hgrid
      obtain ⟨rfl, -, -⟩ := Outcome.mk.inj h
      exact map_eq_ok.mpr ⟨grid, hgrid, rfl⟩
  · intro h
    obtain ⟨grid, hgrid, rfl⟩ := map_eq_ok.mp h
    -- the answer and the notices do not matter here
    exact ⟨_, _, ⟨_, defuzzify_of_grid hgrid⟩, Action.leads_give.mpr ⟨rfl, rfl⟩⟩

namespace Controller

theorem leads_inferRules {c c' : Controller α} :
    inferRules.Leads c c' () ↔ ∃ rules outputs,
      c.rules.mapM (Rule.activate c.inputs c.operators.norm) = .ok rules ∧
        rules.foldlM (Rule.conclude c.operators) c.outputs = .ok outputs ∧
        c' = { c with rules, outputs } := by
  constructor
  · rintro ⟨notices, h⟩
    obtain ⟨hstate, -, hanswer⟩ := Outcome.mk.inj h
    have hsweep : (Action.sweep (Rule.infer c.operators c.inputs)).Leads (c.rules, c.outputs)
        (Action.sweep (Rule.infer c.operators c.inputs) (c.rules, c.outputs)).state () :=
      ⟨_, by rw [← hanswer]⟩
    obtain ⟨hactivate, hconclude⟩ := Rule.leads_sweep_infer.mp hsweep
    exact ⟨_, _, hactivate, hconclude, hstate.symm⟩
  · rintro ⟨rules, outputs, hactivate, hconclude, rfl⟩
    obtain ⟨notices, h⟩ := Rule.leads_sweep_infer.mpr ⟨hactivate, hconclude⟩
    refine ⟨notices, ?_⟩
    unfold inferRules
    rw [h]

/-- Prepares every output. -/
def prepareAll : Action (Controller α) Unit :=
  Action.within Controller.outputs (fun outputs c => { c with outputs })
    (Action.onEach (Action.change prepare))

/-- Turns every accumulated set into the crisp value of its output. -/
def settleAll : Action (Controller α) Unit :=
  Action.within Controller.outputs (fun outputs c => { c with outputs })
    (Action.onEach do let _ ← OutputVariable.defuzzify)

theorem evaluateRules_eq : evaluateRules (α := α) =
    prepareAll >>= fun _ => inferRules >>= fun _ => settleAll := rfl

theorem leads_prepareAll {c c' : Controller α} :
    prepareAll.Leads c c' () ↔
      ∃ prepared, c.outputs.mapM prepare = .ok prepared ∧ c' = { c with outputs := prepared } := by
  unfold prepareAll
  rw [Action.leads_within]
  simp only [Action.leads_onEach, mapM_eq_ok, Action.leads_change]

theorem leads_settleAll {c c' : Controller α} :
    settleAll.Leads c c' () ↔ ∃ outputs, c.outputs.mapM OutputVariable.settle = .ok outputs ∧
      c' = { c with outputs } := by
  unfold settleAll
  rw [Action.leads_within]
  simp only [Action.leads_onEach, mapM_eq_ok, OutputVariable.leads_defuzzify]

/-- A successful evaluation, step by step. -/
theorem leads_evaluateRules {c c' : Controller α} :
    evaluateRules.Leads c c' () ↔ ∃ prepared rules concluded outputs,
      c.outputs.mapM prepare = .ok prepared ∧
        c.rules.mapM (Rule.activate c.inputs c.operators.norm) = .ok rules ∧
        rules.foldlM (Rule.conclude c.operators) prepared = .ok concluded ∧
        concluded.mapM OutputVariable.settle = .ok outputs ∧
        c' = { c with rules, outputs } := by
  rw [evaluateRules_eq, Action.leads_bind]
  constructor
  · rintro ⟨c₁, _, hfirst, hrest⟩
    obtain ⟨prepared, hprepare, rfl⟩ := leads_prepareAll.mp hfirst
    obtain ⟨c₂, _, hinfer, hlast⟩ := Action.leads_bind.mp hrest
    obtain ⟨rules, concluded, hactivate, hconclude, rfl⟩ := leads_inferRules.mp hinfer
    obtain ⟨outputs, hsettle, rfl⟩ := leads_settleAll.mp hlast
    exact ⟨prepared, rules, concluded, outputs, hprepare, hactivate, hconclude, hsettle, rfl⟩
  · rintro ⟨prepared, rules, concluded, outputs, hprepare, hactivate, hconclude, hsettle, rfl⟩
    refine ⟨_, (), leads_prepareAll.mpr ⟨prepared, hprepare, rfl⟩, ?_⟩
    refine Action.leads_bind.mpr ⟨_, (),
      leads_inferRules.mpr ⟨rules, concluded, hactivate, hconclude, rfl⟩, ?_⟩
    exact leads_settleAll.mpr ⟨outputs, hsettle, rfl⟩

end Controller

end FuzzyInference
