import FuzzyInference.Proofs.Freshness

/-!
# Whether an evaluation succeeds

An evaluation fails because something is missing, and never because of a degree, a level or a
height.  So controllers that differ in these alone succeed or fail together.
-/

namespace FuzzyInference

variable {α : Type} [Scalar α] {operators : Operators}

/-! ## Conditions -/

theorem Variable.length_terms_of_fresh {v w : Variable α} (h : w.fresh = v.fresh) :
    w.terms.length = v.terms.length := by
  have hlength := congrArg (fun u => u.terms.length) h
  simpa only [fresh, List.length_map] using hlength

/-- Inputs that are found under the same names and are the same up to degrees. -/
def SameFound (inputs inputs' : List (Variable α)) : Prop :=
  ∀ name, (inputs'.find? (·.name == name)).map Variable.fresh =
    (inputs.find? (·.name == name)).map Variable.fresh

theorem Condition.exists_degree {inputs inputs' : List (Variable α)}
    (h : SameFound inputs inputs') {leaf : Comparison}
    (hleaf : ∃ a, degree inputs leaf = .ok a) : ∃ a, degree inputs' leaf = .ok a := by
  obtain ⟨a, ha⟩ := hleaf
  have hsame := h leaf.name
  unfold degree at ha ⊢
  cases hv : inputs.find? (·.name == leaf.name) with
  | none =>
    rw [hv] at ha
    cases ha
  | some v =>
    rw [hv] at ha
    rw [hv, Option.map_some] at hsame
    obtain ⟨w, hw, hfresh⟩ := Option.map_eq_some_iff.mp hsame
    obtain ⟨t, ht, -⟩ := map_eq_ok.mp ha
    have hterm := Variable.exists_term_iff.mp ⟨t, ht⟩
    rw [← Variable.length_terms_of_fresh hfresh] at hterm
    obtain ⟨t', ht'⟩ := Variable.exists_term_iff.mpr hterm
    rw [hw]
    exact ⟨_, map_eq_ok.mpr ⟨t', ht', rfl⟩⟩

omit [Scalar α] in
theorem exists_joint_iff {x y : Except Fault α} {f : α → α → α} :
    (∃ s, (do let a ← x; let b ← y; return f a b) = .ok s) ↔ (∃ a, x = .ok a) ∧ ∃ b, y = .ok b := by
  cases x with
  | error e => simp [bind, Except.bind]
  | ok a =>
    cases y with
    | error e => simp [bind, Except.bind]
    | ok b => simp [bind, Except.bind, pure, Except.pure]

/-- A condition has a strength just when each of its comparisons has a degree. -/
theorem Condition.exists_strength_iff {inputs : List (Variable α)} {pair : NormPair}
    {c : Condition} : (∃ s, c.strength inputs pair = .ok s) ↔
      ∀ leaf ∈ c.leaves, ∃ a, degree inputs leaf = .ok a := by
  induction c with
  | is leaf =>
    show (∃ a, degree inputs leaf = .ok a) ↔ ∀ d ∈ [leaf], ∃ a, degree inputs d = .ok a
    rw [List.forall_mem_singleton]
  | and l r ihl ihr =>
    simp only [strength, exists_joint_iff, ihl, ihr, leaves, List.forall_mem_append]
  | or l r ihl ihr =>
    simp only [strength, exists_joint_iff, ihl, ihr, leaves, List.forall_mem_append]

theorem Condition.exists_strength {inputs inputs' : List (Variable α)} {pair : NormPair}
    (h : SameFound inputs inputs') {condition : Condition}
    (hcondition : ∃ a, condition.strength inputs pair = .ok a) :
    ∃ a, condition.strength inputs' pair = .ok a :=
  exists_strength_iff.mpr fun leaf hleaf =>
    exists_degree h (exists_strength_iff.mp hcondition leaf hleaf)

theorem Rule.exists_mapM_activate {inputs inputs' : List (Variable α)} {pair : NormPair}
    (h : SameFound inputs inputs') {rules rules' activated : List (Rule α)}
    (hrules : rules'.map fresh = rules.map fresh)
    (hactivate : rules.mapM (activate inputs pair) = .ok activated) :
    ∃ activated', rules'.mapM (activate inputs' pair) = .ok activated' ∧
      activated'.map fresh = activated.map fresh := by
  rw [← mapM_activate_fresh, ← hrules, mapM_activate_fresh] at hactivate
  have hall : ∀ r ∈ rules', ∃ r', r.activate inputs' pair = .ok r' := by
    intro r hr
    obtain ⟨r', -, hr'⟩ := exists_mem_of_mapM_eq_ok hactivate hr
    obtain ⟨strength, hstrength, -⟩ := map_eq_ok.mp hr'
    obtain ⟨strength', hstrength'⟩ := Condition.exists_strength h ⟨strength, hstrength⟩
    exact ⟨_, map_eq_ok.mpr ⟨strength', hstrength', rfl⟩⟩
  obtain ⟨activated', hactivate'⟩ := exists_mapM_eq_ok.mpr hall
  refine ⟨activated', hactivate', ?_⟩
  rw [Action.map_eq_of_forall₂ (fun _ _ => fresh_of_activate) (mapM_eq_ok.mp hactivate'),
    Action.map_eq_of_forall₂ (fun _ _ => fresh_of_activate) (mapM_eq_ok.mp hactivate)]

/-! ## Outputs -/

/-- The output without its crisp value and without heights. -/
def OutputVariable.frame (o : OutputVariable α) : OutputVariable α :=
  { o with crisp := 0, grid := o.grid.map fun grid => { grid with ys := [] } }

open OutputVariable (frame)

theorem Rule.accumulate_frame (r : Rule α) (o : OutputVariable α) :
    (r.fresh.accumulate operators o.frame).map frame = (r.accumulate operators o).map frame := by
  cases o with | mk v crisp default resolution method grid =>
  cases grid with
  | none => rfl
  | some grid =>
    let o : OutputVariable α := ⟨v, crisp, default, resolution, method, some grid⟩
    -- where the rule reaches does not depend on heights
    have hstart : r.fresh.start o.frame = r.start o := rfl
    have hstop : r.fresh.stop o.frame = r.stop o := rfl
    have hterm : o.frame.term r.fresh.conclusion.term = o.term r.conclusion.term := rfl
    unfold accumulate
    rw [hstart, hstop, hterm]
    cases r.start o with
    | error f => rfl
    | ok first =>
      cases r.stop o with
      | error f => rfl
      | ok last =>
        cases o.term r.conclusion.term with
        | error f => rfl
        | ok t => rfl

/-- What a rule that concludes leaves of the outputs apart from heights and crisp values. -/
def Rule.concludeFrame (operators : Operators) (outputs : List (OutputVariable α)) (r : Rule α) :
    Except Fault (List (OutputVariable α)) :=
  Action.changeFirst (fun o => o.name == r.conclusion.name) (.unknownVariable r.conclusion.name)
    (fun o => (r.accumulate operators o).map frame) outputs

theorem Rule.conclude_frame (r : Rule α) (outputs : List (OutputVariable α)) :
    r.fresh.concludeFrame operators (outputs.map frame) =
      (r.conclude operators outputs).map (List.map frame) :=
  Action.changeFirst_map (fun _ => rfl) (accumulate_frame r) outputs

theorem Rule.foldlM_conclude_frame (rules : List (Rule α)) (outputs : List (OutputVariable α)) :
    (rules.map fresh).foldlM (concludeFrame operators) (outputs.map frame) =
      (rules.foldlM (conclude operators) outputs).map (List.map frame) := by
  induction rules generalizing outputs with
  | nil => rfl
  | cons r rules ih =>
    rw [List.map_cons, List.foldlM_cons, List.foldlM_cons, conclude_frame]
    cases r.conclude operators outputs with
    | error f => rfl
    | ok outputs₁ => exact ih outputs₁

theorem OutputVariable.exists_settle_iff {o : OutputVariable α} :
    (∃ o', o.settle = .ok o') ↔ ∃ grid, o.frame.grid = some grid := by
  unfold settle grid? frame
  cases o.grid with
  | none => simp [Except.map]
  | some grid => simp [Except.map]

/-! ## Evaluations -/

namespace Controller

variable {c d c' : Controller α}

/-- An evaluation succeeds whatever the degrees of the inputs are. -/
theorem exists_evaluateRules (hoperators : d.operators = c.operators) (hinputs : c.SameInputs d)
    (hrules : d.rules.map Rule.fresh = c.rules.map Rule.fresh)
    (houtputs : d.outputs.map OutputVariable.fresh = c.outputs.map OutputVariable.fresh)
    (h : evaluateRules.Leads c c' ()) : ∃ d', evaluateRules.Leads d d' () := by
  obtain ⟨prepared, rules, concluded, outputs, hprepare, hactivate, hconclude, hsettle, -⟩ :=
    leads_evaluateRules.mp h
  obtain ⟨prepared', hprepare', hsame⟩ := exists_mapM_prepare houtputs hprepare
  obtain ⟨rules', hactivate', hfresh⟩ := Rule.exists_mapM_activate hinputs hrules hactivate
  have hframe : prepared'.map frame = prepared.map frame := by
    have := congrArg (List.map frame) hsame
    rwa [List.map_map, List.map_map] at this
  have hconclude' : (rules'.foldlM (Rule.conclude c.operators) prepared').map (List.map frame) =
      .ok (concluded.map frame) := by
    rw [← Rule.foldlM_conclude_frame, hfresh, hframe, Rule.foldlM_conclude_frame, hconclude]
    rfl
  obtain ⟨concluded', hconclude', hsame'⟩ := map_eq_ok.mp hconclude'
  -- every output that is left has a grid, so it can be settled
  have hsettles : ∀ o ∈ concluded', ∃ o', o.settle = .ok o' := by
    refine forall_of_map_eq (fun o p hop ho => ?_) hsame'
      (exists_mapM_eq_ok.mp ⟨outputs, hsettle⟩)
    rw [OutputVariable.exists_settle_iff] at ho ⊢
    rwa [← hop]
  obtain ⟨outputs', hsettle'⟩ := exists_mapM_eq_ok.mpr hsettles
  exact ⟨_, leads_evaluateRules.mpr ⟨prepared', rules', concluded', outputs', hprepare',
    hoperators ▸ hactivate', hoperators ▸ hconclude', hsettle', rfl⟩⟩

end Controller

end FuzzyInference
