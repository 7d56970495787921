import FuzzyInference.Proofs.Readiness

/-!
# Crisp values come all or none

An evaluation that fails may have changed degrees, levels and heights, but it has changed no crisp
value: turning the accumulated sets into numbers starts when nothing can fail any more.
-/

namespace FuzzyInference

open List (Forall₂)

variable {α : Type} [Scalar α]

/-- The output without the heights of its accumulated set. -/
def OutputVariable.bare (o : OutputVariable α) : OutputVariable α :=
  { o with grid := o.grid.map fun grid => { grid with ys := [] } }

namespace OutputVariable

theorem bare_prepare {o o' : OutputVariable α} (h : Controller.prepare o = .ok o') :
    o'.bare = o.bare := by
  obtain ⟨-, grid, hgrid, rfl⟩ := Controller.prepare_eq_ok.mp h
  unfold bare
  rw [hgrid]
  rfl

theorem bare_accumulate {operators : Operators} {r : Rule α} {o o' : OutputVariable α}
    (h : r.accumulate operators o = .ok o') : o'.bare = o.bare := by
  obtain ⟨first, last, t, grid, -, -, -, hgrid, rfl⟩ := Rule.accumulate_eq_ok.mp h
  unfold bare
  rw [hgrid]
  rfl

end OutputVariable

theorem Variable.moves_fuzzify_fresh (division : Division) (x : α) :
    (fuzzify division x).Moves fun v v' => v'.fresh = v.fresh := by
  refine (moves_fuzzify (g := Term.fresh) (fun _ _ => rfl) division x).mono fun v v' h => ?_
  unfold fresh
  rw [h.1, h.2]

namespace Controller

/-- The controllers differ in degrees of inputs, heights of grids and levels of rules alone. -/
structure Intact (c c' : Controller α) : Prop where
  config : c'.config = c.config
  name : c'.name = c.name
  inputs : c'.inputs.map Variable.fresh = c.inputs.map Variable.fresh
  outputs : c'.outputs.map OutputVariable.bare = c.outputs.map OutputVariable.bare
  rules : c'.rules.map Rule.fresh = c.rules.map Rule.fresh
  operators : c'.operators = c.operators

namespace Intact

variable {c d e : Controller α}

theorem refl (c : Controller α) : c.Intact c := ⟨rfl, rfl, rfl, rfl, rfl, rfl⟩

theorem trans (h : c.Intact d) (h' : d.Intact e) : c.Intact e where
  config := h'.config.trans h.config
  name := h'.name.trans h.name
  inputs := h'.inputs.trans h.inputs
  outputs := h'.outputs.trans h.outputs
  rules := h'.rules.trans h.rules
  operators := h'.operators.trans h.operators

theorem crispValues_eq (h : c.Intact d) : d.crispValues = c.crispValues := by
  have hcrisp := congrArg (List.map fun o : OutputVariable α => (o.name, o.crisp)) h.outputs
  rwa [List.map_map, List.map_map] at hcrisp

end Intact

/-! ## What each step leaves -/

theorem intact_fuzzify (division : Division) (name : String) (x : α) :
    (fuzzify division name x).Moves Intact :=
  Action.moves_within (Action.moves_onFirst_map (Variable.moves_fuzzify_fresh division x))
    fun c _ h => { Intact.refl c with inputs := h }

theorem intact_fuzzifyAll (division : Division) (values : List (String × α)) :
    (Action.forEach values fun p => fuzzify division p.1 p.2).Moves Intact :=
  Action.moves_forEach Intact.refl (fun _ _ _ => Intact.trans) fun p _ =>
    intact_fuzzify division p.1 p.2

theorem intact_prepareAll : (prepareAll (α := α)).Moves Intact :=
  Action.moves_within (Action.moves_onEach_map (Action.moves_change_key fun _ _ =>
    OutputVariable.bare_prepare)) fun c _ h => { Intact.refl c with outputs := h }

theorem intact_inferRules : (inferRules (α := α)).Moves Intact := by
  intro c
  have hinfer : (Action.sweep (Rule.infer c.operators c.inputs)).Moves fun p q =>
      q.1.map Rule.fresh = p.1.map Rule.fresh ∧
        q.2.map OutputVariable.bare = p.2.map OutputVariable.bare :=
    Rule.moves_sweep_infer (fun _ _ => Rule.fresh_of_activate) fun _ _ _ =>
      OutputVariable.bare_accumulate
  obtain ⟨hrules, houtputs⟩ := hinfer (c.rules, c.outputs)
  exact { Intact.refl c with rules := hrules, outputs := houtputs }

-- Where an evaluation fails, no output has been settled yet.
theorem intact_of_fails_evaluateRules {c : Controller α} {f : Fault}
    (h : evaluateRules.Fails c f) : c.Intact (evaluateRules c).state := by
  rw [evaluateRules_eq] at h ⊢
  rcases Action.fails_bind.mp h with hprepare | ⟨c₁, _, hprepare, h⟩
  · rw [Action.state_bind_of_fails hprepare]
    exact intact_prepareAll c
  · rw [Action.state_bind_of_leads hprepare]
    have hfirst : c.Intact c₁ := hprepare.state_eq ▸ intact_prepareAll c
    rcases Action.fails_bind.mp h with hinfer | ⟨c₂, _, hinfer, hsettle⟩
    · rw [Action.state_bind_of_fails hinfer]
      exact hfirst.trans (intact_inferRules c₁)
    · obtain ⟨prepared, hprepared, rfl⟩ := leads_prepareAll.mp hprepare
      exact absurd hsettle (not_fails_settleAll (isSome_grid_of_inferRules hprepared hinfer))

-- The same with the readings before the rules; the answer is asked for when nothing can fail.
theorem intact_of_fails_evaluate {c : Controller α} {f : Fault} {division : Division}
    {values : List (String × α)} (h : (evaluate division values).Fails c f) :
    c.Intact (evaluate division values c).state := by
  unfold evaluate at h ⊢
  rcases Action.fails_bind.mp h with hread | ⟨read, _, hread, h⟩
  · rw [Action.state_bind_of_fails hread]
    exact intact_fuzzifyAll division values c
  · have hfirst : c.Intact read := hread.state_eq ▸ intact_fuzzifyAll division values c
    rcases Action.fails_bind.mp h with hrules | ⟨d, _, -, hask⟩
    · rw [Action.state_bind_of_leads hread, Action.state_bind_of_fails hrules]
      exact hfirst.trans (intact_of_fails_evaluateRules hrules)
    · cases hask

/-! ## A whole cycle -/

/-- Nothing but levels, heights and crisp values has changed: the rules have been activated and
accumulated in cleared grids, and every crisp value is that of the grid as it is now. -/
structure Cycled (c d : Controller α) : Prop where
  rules : c.rules.mapM (Rule.activate c.inputs c.operators.norm) = .ok d.rules
  outputs : ∃ cleared accumulated,
    Forall₂ (fun o o' => ∃ grid, o.grid = some grid ∧
      o' = { o with grid := some { grid with ys := grid.ys.map fun _ => 0 } }) c.outputs cleared ∧
    d.rules.foldlM (Rule.conclude c.operators) cleared = .ok accumulated ∧
    Forall₂ (fun o o' => ∃ grid, o.grid = some grid ∧ o' = { o with crisp := (o.centre grid).1 })
      accumulated d.outputs
  rest : d = { c with rules := d.rules, outputs := d.outputs }

theorem cycled_of_leads {c d : Controller α} (h : evaluateRules.Leads c d ()) : c.Cycled d := by
  obtain ⟨cleared, rules, accumulated, outputs, hprepare, hactivate, hconclude, hsettle, rfl⟩ :=
    leads_evaluateRules.mp h
  refine ⟨hactivate, ⟨cleared, accumulated, ?_, hconclude, ?_⟩, rfl⟩
  · exact (mapM_eq_ok.mp hprepare).imp fun _ _ ho => (prepare_eq_ok.mp ho).2
  · refine (mapM_eq_ok.mp hsettle).imp fun o o' ho => ?_
    obtain ⟨grid, hgrid, rfl⟩ := map_eq_ok.mp ho
    exact ⟨grid, OutputVariable.grid?_eq_ok.mp hgrid, rfl⟩

/-- An evaluation that fails leaves all crisp values, and everything but degrees, heights and
levels, as they were. One that succeeds has computed every crisp value from its grid. -/
theorem crisp_all_or_none (c : Controller α) :
    ((∃ f, evaluateRules.Fails c f ∧ c.Intact (evaluateRules c).state ∧
        (evaluateRules c).state.crispValues = c.crispValues) ∨
      ∃ d, evaluateRules.Leads c d () ∧ c.Cycled d) ∧
    ∀ division values,
      (∃ f, (evaluate division values).Fails c f ∧ c.Intact (evaluate division values c).state ∧
        (evaluate division values c).state.crispValues = c.crispValues) ∨
      ∃ read d, (Action.forEach values fun p => fuzzify division p.1 p.2).Leads c read () ∧
        c.Intact read ∧ read.Cycled d ∧ (evaluate division values).Leads c d d.crispValues := by
  constructor
  · rcases Action.leads_or_fails evaluateRules c with ⟨d, _, h⟩ | ⟨f, h⟩
    · exact .inr ⟨d, h, cycled_of_leads h⟩
    · have hintact := intact_of_fails_evaluateRules h
      exact .inl ⟨f, h, hintact, hintact.crispValues_eq⟩
  · intro division values
    rcases Action.leads_or_fails (evaluate division values) c with ⟨d, crisp, h⟩ | ⟨f, h⟩
    · obtain ⟨read, hread, hrules, rfl⟩ := leads_evaluate.mp h
      rw [readingsOf, Action.forEach_map] at hread
      have hfirst : c.Intact read := hread.state_eq ▸ intact_fuzzifyAll division values c
      exact .inr ⟨read, d, hread, hfirst, cycled_of_leads hrules, h⟩
    · have hintact := intact_of_fails_evaluate h
      exact .inl ⟨f, h, hintact, hintact.crispValues_eq⟩

-- The second rule asks for an input that is not there, when the first has its new level and has
-- been accumulated.  The crisp value is the one from before.
example :
    let valve : OutputVariable Rat := ⟨⟨"valve", [⟨"shut", [⟨0, 0⟩, ⟨2, 1⟩], 0, [0, 1]⟩]⟩,
      7, 0, 2, .gravity, some ⟨[0, 2], [1, 1]⟩⟩
    let tank : Controller Rat := { Controller.ofConfig .standard "tank" with
      inputs := [⟨"flow", [⟨"high", [⟨0, 0⟩, ⟨4, 1⟩], 1 / 2, []⟩]⟩]
      outputs := [valve]
      rules := [⟨.is ⟨"flow", 0, false⟩, ⟨"valve", 0, 1⟩, 0⟩,
        ⟨.is ⟨"heat", 0, false⟩, ⟨"valve", 0, 1⟩, 0⟩] }
    let o := evaluate .total [("flow", 3)] tank
    o.answer.toOption = none ∧ o.state.rules.map Rule.level = [3 / 4, 0] ∧
      o.state.outputs = [{ valve with grid := some ⟨[0, 2], [0, 3 / 4]⟩ }] := by
  decide +kernel

end Controller

end FuzzyInference
