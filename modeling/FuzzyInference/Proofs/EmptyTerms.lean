import FuzzyInference.Proofs.Loading
import FuzzyInference.Proofs.Rereading

/-!
# Evaluations that fail

With exact numbers an evaluation of a reachable controller fails for a misconfiguration, or because
it comes to a rule that concludes a term without points.
-/

namespace FuzzyInference

open OutputVariable (frame)

variable {α : Type} [Scalar α] {operators : Operators}

theorem Condition.misconfigured_of_strength {inputs : List (Variable α)} {pair : NormPair}
    {condition : Condition} {f : Fault} (h : condition.strength inputs pair = .error f) :
    ∃ cause, f = .misconfigured cause := by
  induction condition with
  | is leaf => exact misconfigured_of_degree h
  | and l r ihl ihr =>
    rcases bind_eq_error.mp h with h | ⟨a, -, h⟩
    · exact ihl h
    · rcases bind_eq_error.mp h with h | ⟨b, -, h⟩
      · exact ihr h
      · cases h
  | or l r ihl ihr =>
    rcases bind_eq_error.mp h with h | ⟨a, -, h⟩
    · exact ihl h
    · rcases bind_eq_error.mp h with h | ⟨b, -, h⟩
      · exact ihr h
      · cases h

/-! ## What a rule aims at -/

/-- The condition of the rule has a strength, and `t` is the term that it concludes. -/
structure Rule.Aims (inputs : List (Variable α)) (pair : NormPair)
    (outputs : List (OutputVariable α)) (r : Rule α) (t : Term α) : Prop where
  strength : ∃ a, r.condition.strength inputs pair = .ok a
  conclusion : ∃ o, outputs.find? (·.name == r.conclusion.name) = some o ∧
    o.term r.conclusion.term = .ok t

namespace Rule

variable {inputs inputs' : List (Variable α)} {pair : NormPair}
  {outputs outputs' : List (OutputVariable α)} {r : Rule α} {t : Term α}

theorem Aims.of_frames (h : r.Aims inputs pair outputs t)
    (hframes : outputs'.map frame = outputs.map frame) : r.Aims inputs pair outputs' t := by
  obtain ⟨o, ho, ht⟩ := h.conclusion
  obtain ⟨o', ho', hframe⟩ := OutputVariable.find?_of_frames hframes ho
  have hvariable : o'.toVariable = o.toVariable := congrArg (·.toVariable) hframe
  exact ⟨h.strength, o', ho', hvariable ▸ ht⟩

theorem Aims.of_sameFound (h : r.Aims inputs pair outputs t) (hsame : SameFound inputs inputs') :
    r.Aims inputs' pair outputs t :=
  ⟨Condition.exists_strength hsame h.strength, h.conclusion⟩

theorem aims_iff_of_frames (hframes : outputs'.map frame = outputs.map frame) :
    r.Aims inputs pair outputs' t ↔ r.Aims inputs pair outputs t :=
  ⟨fun h => h.of_frames hframes.symm, fun h => h.of_frames hframes⟩

theorem accumulate_of_nil {o : OutputVariable α} (ht : o.term r.conclusion.term = .ok t)
    (hpoints : t.points = []) : r.accumulate operators o = .error .outOfBounds := by
  unfold accumulate start reach
  rw [ht]
  dsimp only [bind, Except.bind]
  rw [hpoints]
  rfl

end Rule

/-! ## Rules over exact numbers -/

namespace Rule

variable {inputs : List (Variable Rat)} {outputs outputs' : List (OutputVariable Rat)}
  {r : Rule Rat} {f : Fault}

-- Every rational has an integer part, so every abscissa has an index.
theorem accumulate_eq_error {o : OutputVariable Rat} (hgrid : o.grid.isSome = true) :
    r.accumulate operators o = .error f ↔ o.term r.conclusion.term = .error f ∨
      ∃ t, o.term r.conclusion.term = .ok t ∧ t.points = [] ∧ f = .outOfBounds := by
  cases ht : o.term r.conclusion.term with
  | error g =>
    unfold accumulate start reach
    rw [ht]
    simp [bind, Except.bind]
  | ok t =>
    constructor
    · intro h
      rcases fault_of_accumulate ht hgrid h with ⟨hpoints, rfl⟩ | ⟨_, _, hfloor, -⟩
      · exact .inr ⟨t, rfl, hpoints, rfl⟩
      · cases hfloor
    · rintro (h | ⟨_, hsame, hpoints, rfl⟩)
      · cases h
      · obtain rfl := Except.ok.inj hsame
        exact accumulate_of_nil ht hpoints

theorem exists_accumulate_iff {o : OutputVariable Rat} (hgrid : o.grid.isSome = true) :
    (∃ o', r.accumulate operators o = .ok o') ↔
      ∃ t, o.term r.conclusion.term = .ok t ∧ t.points ≠ [] := by
  cases h : r.accumulate operators o with
  | ok o' =>
    refine iff_of_true ⟨o', rfl⟩ ?_
    cases ht : o.term r.conclusion.term with
    | error g => cases h.symm.trans ((accumulate_eq_error hgrid).mpr (.inl ht))
    | ok t =>
      exact ⟨t, rfl, fun hpoints => by cases h.symm.trans (accumulate_of_nil ht hpoints)⟩
  | error g =>
    refine iff_of_false (fun ⟨_, h⟩ => by cases h) ?_
    rintro ⟨t, ht, hpoints⟩
    rcases (accumulate_eq_error hgrid).mp h with h | ⟨_, hsame, hnil, -⟩
    · cases ht.symm.trans h
    · exact hpoints (Except.ok.inj (ht.symm.trans hsame) ▸ hnil)

/-- A rule is inferred just when it aims at a term with points. -/
theorem exists_infer_iff (hgrids : ∀ o ∈ outputs, o.grid.isSome = true) :
    (∃ r' outputs', (infer operators inputs).Leads (r, outputs) (r', outputs') ()) ↔
      ∃ t, r.Aims inputs operators.norm outputs t ∧ t.points ≠ [] := by
  constructor
  · rintro ⟨r', outputs', h⟩
    obtain ⟨hactivate, hconclude⟩ := leads_infer.mp h
    obtain ⟨a, ha, rfl⟩ := map_eq_ok.mp hactivate
    obtain ⟨o, o', ho, ho', -⟩ :=
      Action.find?_changeFirst (fun _ _ => name_of_accumulate) hconclude
    obtain ⟨t, ht, hpoints⟩ :=
      (exists_accumulate_iff (hgrids o (List.mem_of_find?_eq_some ho))).mp ⟨o', ho'⟩
    exact ⟨t, ⟨⟨a, ha⟩, o, ho, ht⟩, hpoints⟩
  · rintro ⟨t, ⟨⟨a, ha⟩, o, ho, ht⟩, hpoints⟩
    let r' : Rule Rat := { r with level := a * r.conclusion.weight }
    have hactivate : r.activate inputs operators.norm = .ok r' := map_eq_ok.mpr ⟨a, ha, rfl⟩
    obtain ⟨o', ho'⟩ : ∃ o', r'.accumulate operators o = .ok o' :=
      (exists_accumulate_iff (hgrids o (List.mem_of_find?_eq_some ho))).mpr ⟨t, ht, hpoints⟩
    obtain ⟨outputs', hconclude⟩ := Action.exists_changeFirst ho ho'
    exact ⟨r', outputs', leads_infer.mpr ⟨hactivate, hconclude⟩⟩

/-- A rule fails for a misconfiguration, or because it concludes nothing that is there, or because
the term that it aims at has no points. -/
theorem fails_infer_cases (hgrids : ∀ o ∈ outputs, o.grid.isSome = true)
    (hname : r.conclusion.name ∈ outputs.map (·.name))
    (h : (infer operators inputs).Fails (r, outputs) f) :
    (∃ cause, f = .misconfigured cause) ∨
      f = .outOfBounds ∧ ∃ t, r.Aims inputs operators.norm outputs t ∧ t.points = [] := by
  rcases fails_infer.mp h with hfault | ⟨r', hactivate, hfault⟩
  · exact .inl (Condition.misconfigured_of_strength hfault)
  · obtain ⟨a, ha, rfl⟩ := map_eq_ok.mp hactivate
    rcases hfault with ⟨hnone, -⟩ | ⟨o, ho, hfault⟩
    · obtain ⟨o, ho, hsame⟩ := List.mem_map.mp hname
      exact absurd (beq_iff_eq.mpr hsame) (List.find?_eq_none.mp hnone o ho)
    · have hgrid := hgrids o (List.mem_of_find?_eq_some ho)
      rcases (accumulate_eq_error hgrid).mp hfault with hterm | ⟨t, ht, hpoints, rfl⟩
      · exact .inl (Variable.misconfigured_of_term hterm)
      · exact .inr ⟨rfl, t, ⟨⟨a, ha⟩, o, ho, ht⟩, hpoints⟩

theorem fails_infer_of_nil {t : Term Rat} (h : r.Aims inputs operators.norm outputs t)
    (hpoints : t.points = []) : (infer operators inputs).Fails (r, outputs) .outOfBounds := by
  obtain ⟨⟨a, ha⟩, o, ho, ht⟩ := h
  let r' : Rule Rat := { r with level := a * r.conclusion.weight }
  have hactivate : r.activate inputs operators.norm = .ok r' := map_eq_ok.mpr ⟨a, ha, rfl⟩
  have hfault : r'.accumulate operators o = .error .outOfBounds := accumulate_of_nil ht hpoints
  exact fails_infer.mpr (.inr ⟨r', hactivate, .inr ⟨o, ho, hfault⟩⟩)

/-- Rules are inferred one after the other just when each of them aims at a term with points. -/
theorem exists_sweep_iff {rules : List (Rule Rat)}
    (hgrids : ∀ o ∈ outputs, o.grid.isSome = true) :
    (∃ rules' outputs',
      (Action.sweep (infer operators inputs)).Leads (rules, outputs) (rules', outputs') ()) ↔
      ∀ r ∈ rules, ∃ t, r.Aims inputs operators.norm outputs t ∧ t.points ≠ [] := by
  -- on the rules: what is left of the outputs has the frames that the first rule met
  induction rules generalizing outputs with
  | nil =>
    exact iff_of_true ⟨[], outputs, Action.leads_sweep_nil.mpr ⟨rfl, rfl⟩⟩
      fun _ hr => absurd hr List.not_mem_nil
  | cons r rules ih =>
    rw [List.forall_mem_cons, ← exists_infer_iff hgrids]
    have hrest {r' : Rule Rat} {outputs₁ : List (OutputVariable Rat)}
        (h : (infer operators inputs).Leads (r, outputs) (r', outputs₁) ()) :
        (∃ rules' outputs',
          (Action.sweep (infer operators inputs)).Leads (rules, outputs₁) (rules', outputs') ()) ↔
          ∀ r ∈ rules, ∃ t, r.Aims inputs operators.norm outputs t ∧ t.points ≠ [] := by
      have hframes : outputs₁.map frame = outputs.map frame := by
        have hkept := moves_infer_frame operators inputs (r, outputs)
        rwa [h.state_eq] at hkept
      rw [ih (OutputVariable.isSome_grid_of_frames hframes hgrids)]
      simp only [aims_iff_of_frames hframes]
    constructor
    · rintro ⟨rules', outputs', h⟩
      obtain ⟨r', rest, outputs₁, hfirst, hlast, -⟩ := Action.leads_sweep_cons.mp h
      exact ⟨⟨r', outputs₁, hfirst⟩, (hrest hfirst).mp ⟨rest, outputs', hlast⟩⟩
    · rintro ⟨⟨r', outputs₁, hfirst⟩, h⟩
      obtain ⟨rest, outputs', hlast⟩ := (hrest hfirst).mpr h
      exact ⟨_, outputs', Action.leads_sweep_cons.mpr ⟨r', rest, outputs₁, hfirst, hlast, rfl⟩⟩

end Rule

/-! ## Evaluations over exact numbers -/

namespace Controller

/-- The rule aims at the term `t` in the controller as it is. -/
def Aims (c : Controller α) (r : Rule α) (t : Term α) : Prop :=
  r.Aims c.inputs c.operators.norm c.outputs t

/-- The rules aim at terms with points up to one that aims at a term without. -/
def Stumbles (c : Controller α) : Prop :=
  ∃ before r after t, c.rules = before ++ r :: after ∧
    (∀ s ∈ before, ∃ t, c.Aims s t ∧ t.points ≠ []) ∧ c.Aims r t ∧ t.points = []

/-- Each name is that of an input whose terms all have points. -/
def Readable (c : Controller α) (values : List (String × α)) : Prop :=
  ∀ p ∈ values, ∃ v, c.input? p.1 = some v ∧ ∀ t ∈ v.terms, t.points ≠ []

theorem aims_iff_of_run {c d : Controller α} {readings : List (String × Reading α)}
    (h : (Action.forEach readings take).Leads c d ()) {r : Rule α} {t : Term α} :
    d.Aims r t ↔ c.Aims r t := by
  obtain ⟨hoperators, -, houtputs⟩ := outside_of_run h
  have hsame : SameFound c.inputs d.inputs := SameInputs.of_run h
  unfold Aims
  rw [hoperators, houtputs]
  exact ⟨fun haims => haims.of_sameFound fun name => (hsame name).symm,
    fun haims => haims.of_sameFound hsame⟩

theorem stumbles_iff_of_run {c d : Controller α} {readings : List (String × Reading α)}
    (h : (Action.forEach readings take).Leads c d ()) : d.Stumbles ↔ c.Stumbles := by
  unfold Stumbles
  rw [(outside_of_run h).2.1]
  simp only [aims_iff_of_run h]

variable {c : Controller Rat} {f : Fault}

theorem exists_run_iff_readable {division : Division} {values : List (String × Rat)} :
    (∃ d, (Action.forEach (readingsOf division values) take).Leads c d ()) ↔
      c.Readable values := by
  rw [exists_run_iff]
  unfold readingsOf Readable
  simp only [List.forall_mem_map, takes_iff]

theorem misconfigured_of_take {p : String × Reading Rat} (h : (take p).Fails c f) :
    ∃ cause, f = .misconfigured cause := by
  rcases Action.fails_onFirst.mp (Action.fails_within.mp h) with ⟨-, rfl⟩ | ⟨v, -, hv⟩
  · exact ⟨_, rfl⟩
  · obtain ⟨t, -, ht⟩ := Action.exists_of_fails_onEach (Action.fails_within.mp hv)
    have hfault := Action.fails_change.mp ht
    by_cases hpoints : t.points = []
    · unfold Term.fuzzify Term.degree at hfault
      rw [hpoints] at hfault
      exact ⟨_, (Except.error.inj hfault).symm⟩
    · obtain ⟨t', ht'⟩ := Term.exists_fuzzify_iff.mpr hpoints
      cases ht'.symm.trans hfault

-- The outputs that have been prepared have the frames that the rules aim at.
theorem aims_iff_of_prepare {prepared : List (OutputVariable Rat)}
    (h : c.outputs.mapM prepare = .ok prepared) {r : Rule Rat} {t : Term Rat} :
    r.Aims c.inputs c.operators.norm prepared t ↔ c.Aims r t :=
  Rule.aims_iff_of_frames (frames_of_mapM_prepare h).2

theorem isSome_grid_of_prepare {prepared : List (OutputVariable Rat)}
    (h : c.outputs.mapM prepare = .ok prepared) : ∀ o ∈ prepared, o.grid.isSome = true :=
  OutputVariable.isSome_grid_of_frames (frames_of_mapM_prepare h).2 (frames_of_mapM_prepare h).1

/-- The rules are evaluated just when all outputs are discretized and every rule aims at a term with
points. -/
theorem exists_evaluateRules_iff : (∃ d, evaluateRules.Leads c d ()) ↔
    (∀ o ∈ c.outputs, o.isDiscretized = true) ∧ ∀ r ∈ c.rules, ∃ t, c.Aims r t ∧ t.points ≠ [] := by
  constructor
  · rintro ⟨d, h⟩
    obtain ⟨prepared, rules, concluded, -, hprepare, hactivate, hconclude, -⟩ :=
      leads_evaluateRules.mp h
    have hsweep := Rule.leads_sweep_infer.mpr ⟨hactivate, hconclude⟩
    have haims := (Rule.exists_sweep_iff (isSome_grid_of_prepare hprepare)).mp ⟨_, _, hsweep⟩
    simp only [aims_iff_of_prepare hprepare] at haims
    refine ⟨fun o ho => exists_prepare_iff.mp ?_, haims⟩
    obtain ⟨o', -, ho'⟩ := exists_mem_of_mapM_eq_ok hprepare ho
    exact ⟨o', ho'⟩
  · rintro ⟨hready, haims⟩
    obtain ⟨prepared, hprepare⟩ :=
      exists_mapM_eq_ok.mpr fun o ho => exists_prepare_iff.mpr (hready o ho)
    simp only [← aims_iff_of_prepare hprepare] at haims
    obtain ⟨rules, outputs, hsweep⟩ :=
      (Rule.exists_sweep_iff (isSome_grid_of_prepare hprepare)).mpr haims
    rcases Action.leads_or_fails evaluateRules c with ⟨d, _, h⟩ | ⟨f, h⟩
    · exact ⟨d, h⟩
    · rcases fails_evaluateRules.mp h with h | ⟨prepared', hprepare', h⟩
      · exact absurd h (leads_prepareAll.mpr ⟨prepared, hprepare, rfl⟩).not_fails
      · obtain rfl := Except.ok.inj (hprepare.symm.trans hprepare')
        exact absurd h hsweep.not_fails

theorem fails_evaluateRules_cases (hc : c.Concluding) (h : evaluateRules.Fails c f) :
    (∃ cause, f = .misconfigured cause) ∨
      f = .outOfBounds ∧ (∀ o ∈ c.outputs, o.isDiscretized = true) ∧ c.Stumbles := by
  rcases fails_evaluateRules.mp h with h | ⟨prepared, hprepare, h⟩
  · obtain ⟨o, -, -, rfl⟩ := exists_of_fails_prepareAll h
    exact .inl ⟨_, rfl⟩
  · obtain ⟨before, r, after, rules, outputs, hrules, hbefore, hr⟩ := Action.fails_sweep.mp h
    have hgrids := isSome_grid_of_prepare hprepare
    have hkept := Rule.moves_sweep_frame c.operators c.inputs (before, prepared)
    rw [hbefore.state_eq] at hkept
    -- the names of the outputs are still there when the rule is inferred
    have hname : r.conclusion.name ∈ outputs.map (·.name) := by
      have hnames : outputs.map (·.name) = c.outputs.map (·.name) := by
        have := congrArg (List.map fun o : OutputVariable Rat => o.name)
          (hkept.trans (frames_of_mapM_prepare hprepare).2)
        rwa [List.map_map, List.map_map] at this
      exact hnames ▸ hc r (by rw [hrules]; simp)
    rcases Rule.fails_infer_cases (OutputVariable.isSome_grid_of_frames hkept hgrids) hname hr with
      hcause | ⟨rfl, t, haims, hpoints⟩
    · exact .inl hcause
    · refine .inr ⟨rfl, fun o ho => ?_, before, r, after, t, hrules, ?_, ?_, hpoints⟩
      · obtain ⟨o', -, ho'⟩ := exists_mem_of_mapM_eq_ok hprepare ho
        exact exists_prepare_iff.mp ⟨o', ho'⟩
      · have haims := (Rule.exists_sweep_iff hgrids).mp ⟨rules, outputs, hbefore⟩
        simpa only [aims_iff_of_prepare hprepare] using haims
      · exact (aims_iff_of_prepare hprepare).mp (haims.of_frames hkept.symm)

theorem fails_evaluateRules_of_stumbles (hready : ∀ o ∈ c.outputs, o.isDiscretized = true)
    (h : c.Stumbles) : evaluateRules.Fails c .outOfBounds := by
  obtain ⟨before, r, after, t, hrules, hbefore, haims, hpoints⟩ := h
  obtain ⟨prepared, hprepare⟩ :=
    exists_mapM_eq_ok.mpr fun o ho => exists_prepare_iff.mpr (hready o ho)
  simp only [← aims_iff_of_prepare hprepare] at hbefore haims
  obtain ⟨rules, outputs, hsweep⟩ :=
    (Rule.exists_sweep_iff (isSome_grid_of_prepare hprepare)).mpr hbefore
  have hkept := Rule.moves_sweep_frame c.operators c.inputs (before, prepared)
  rw [hsweep.state_eq] at hkept
  refine fails_evaluateRules.mpr (.inr ⟨prepared, hprepare, ?_⟩)
  exact Action.fails_sweep.mpr ⟨before, r, after, rules, outputs, hrules, hsweep,
    Rule.fails_infer_of_nil (haims.of_frames hkept) hpoints⟩

-- Readings change nothing that decides whether the rules can be evaluated.
theorem exists_evaluateRules_of_run {d : Controller Rat} {readings : List (String × Reading Rat)}
    (h : (Action.forEach readings take).Leads c d ()) : (∃ e, evaluateRules.Leads d e ()) ↔
      (∀ o ∈ c.outputs, o.isDiscretized = true) ∧
        ∀ r ∈ c.rules, ∃ t, c.Aims r t ∧ t.points ≠ [] := by
  obtain ⟨-, hrules, houtputs⟩ := outside_of_run h
  rw [exists_evaluateRules_iff, hrules, houtputs]
  simp only [aims_iff_of_run h]

theorem exists_evaluate_iff {division : Division} {values : List (String × Rat)} :
    (∃ d crisp, (evaluate division values).Leads c d crisp) ↔
      c.Readable values ∧ (∀ o ∈ c.outputs, o.isDiscretized = true) ∧
        ∀ r ∈ c.rules, ∃ t, c.Aims r t ∧ t.points ≠ [] := by
  constructor
  · rintro ⟨e, crisp, h⟩
    obtain ⟨d, hd, hrules, -⟩ := leads_evaluate.mp h
    exact ⟨exists_run_iff_readable.mp ⟨d, hd⟩, (exists_evaluateRules_of_run hd).mp ⟨e, hrules⟩⟩
  · rintro ⟨hreadable, h⟩
    obtain ⟨d, hd⟩ := exists_run_iff_readable.mpr hreadable
    obtain ⟨e, hrules⟩ := (exists_evaluateRules_of_run hd).mpr h
    exact ⟨e, e.crispValues, leads_evaluate.mpr ⟨d, hd, hrules, rfl⟩⟩

theorem fails_evaluate_cases (hc : c.Concluding) {division : Division}
    {values : List (String × Rat)} (h : (evaluate division values).Fails c f) :
    (∃ cause, f = .misconfigured cause) ∨ f = .outOfBounds ∧ c.Readable values ∧
      (∀ o ∈ c.outputs, o.isDiscretized = true) ∧ c.Stumbles := by
  rcases fails_evaluate.mp h with h | ⟨d, hd, h⟩
  · obtain ⟨before, p, after, d, -, -, hp⟩ := Action.fails_forEach.mp h
    exact .inl (misconfigured_of_take hp)
  · obtain ⟨-, hrules, houtputs⟩ := outside_of_run hd
    have hconcluding : d.Concluding := by
      unfold Concluding
      rw [hrules, houtputs]
      exact hc
    rcases fails_evaluateRules_cases hconcluding h with hcause | ⟨hfault, hstumbles⟩
    · exact .inl hcause
    · rw [stumbles_iff_of_run hd, houtputs] at hstumbles
      exact .inr ⟨hfault, exists_run_iff_readable.mp ⟨d, hd⟩, hstumbles⟩

theorem fails_evaluate_of_stumbles {division : Division} {values : List (String × Rat)}
    (hreadable : c.Readable values) (hready : ∀ o ∈ c.outputs, o.isDiscretized = true)
    (h : c.Stumbles) : (evaluate division values).Fails c .outOfBounds := by
  obtain ⟨d, hd⟩ := exists_run_iff_readable.mpr hreadable
  rw [← stumbles_iff_of_run hd] at h
  rw [← (outside_of_run hd).2.2] at hready
  exact fails_evaluate.mpr (.inr ⟨d, hd, fails_evaluateRules_of_stumbles hready h⟩)

/-- Where an output is discretized, the points, the heights and all samples are as many as it asks
for, so series that are combined fit together. -/
theorem Reachable.exists_grid (hc : c.Reachable) {o : OutputVariable Rat} (ho : o ∈ c.outputs)
    (hready : o.isDiscretized = true) : 0 < o.resolution ∧ ∃ grid, o.grid = some grid ∧
      grid.xs.length = o.resolution ∧ grid.ys.length = o.resolution ∧
      ∀ t ∈ o.terms, t.samples.length = o.resolution := by
  obtain ⟨hsome, hsamples⟩ := Bool.and_eq_true_iff.mp hready
  obtain ⟨grid, hgrid⟩ := Option.isSome_iff_exists.mp hsome
  exact ⟨hc.resolution_pos o ho, grid, hgrid, hc.spanned o ho grid hgrid,
    hc.gridded o ho grid hgrid, fun t ht => beq_iff_eq.mp (List.all_eq_true.mp hsamples t ht)⟩

/-- An evaluation with exact numbers succeeds where all inputs can be read, all outputs are
discretized and every rule aims at a term with points.  It fails for a misconfiguration, or because
a rule that is reached aims at a term without points, and never because series do not fit. -/
theorem evaluate_outcomes (hc : c.Reachable) (division : Division) (values : List (String × Rat)) :
    ((∃ d crisp, (evaluate division values).Leads c d crisp) ↔
      c.Readable values ∧ (∀ o ∈ c.outputs, o.isDiscretized = true) ∧
        ∀ r ∈ c.rules, ∃ t, c.Aims r t ∧ t.points ≠ []) ∧
    ((evaluate division values).Fails c .outOfBounds ↔
      c.Readable values ∧ (∀ o ∈ c.outputs, o.isDiscretized = true) ∧ c.Stumbles) ∧
    (∀ f, (evaluate division values).Fails c f →
      (∃ cause, f = .misconfigured cause) ∨ f = .outOfBounds) ∧
    ∀ o ∈ c.outputs, o.isDiscretized = true → 0 < o.resolution ∧ ∃ grid, o.grid = some grid ∧
      grid.xs.length = o.resolution ∧ grid.ys.length = o.resolution ∧
      ∀ t ∈ o.terms, t.samples.length = o.resolution := by
  refine ⟨exists_evaluate_iff, ⟨fun h => ?_, fun ⟨hreadable, hready, h⟩ =>
    fails_evaluate_of_stumbles hreadable hready h⟩, fun f h => ?_, fun o ho => hc.exists_grid ho⟩
  · rcases fails_evaluate_cases hc.concluding h with ⟨cause, hcause⟩ | ⟨-, h⟩
    · cases hcause
    · exact h
  · exact (fails_evaluate_cases hc.concluding h).imp_right And.left

/-- A controller whose only output term has lost its points after it was sampled. -/
def hollow : Controller Rat := built "" [
  .addInput ⟨"x", [.ofPoints "a" [⟨0, 0⟩, ⟨1, 1⟩]]⟩,
  .addOutput "y" [.ofPoints "b" [⟨0, 0⟩, ⟨1, 1⟩]] (.integer 2) (.text "COG") (.real 0),
  .addRule (.is ⟨"x", 0, false⟩) ⟨"y", 0, 1⟩,
  .discretize,
  .onOutput "y" (.onTerm 0 (.setPoints []))]

theorem evaluate_outcomes_hollow : hollow.Reachable ∧ hollow.Stumbles := by
  have hreachable : hollow.Reachable := reachable_built "" _
  have hfails : (evaluate .checked [("x", 1 / 2)]).Fails hollow .outOfBounds := by
    unfold Action.Fails
    decide +kernel
  obtain ⟨-, hstumbles, -⟩ := evaluate_outcomes hreachable .checked [("x", 1 / 2)]
  exact ⟨hreachable, (hstumbles.mp hfails).2.2⟩

-- Its output counts as discretized, and the evaluation does not end with a misconfiguration.
theorem evaluate_hollow_outOfBounds : hollow.Reachable ∧
    (∀ o ∈ hollow.outputs, o.isDiscretized = true) ∧
    ∃ f, (evaluate .checked [("x", 1 / 2)]).Fails hollow f ∧
      ¬∃ cause, f = .misconfigured cause := by
  refine ⟨reachable_built "" _, by decide +kernel, .outOfBounds, ?_, fun ⟨_, h⟩ => by cases h⟩
  unfold Action.Fails
  decide +kernel

end Controller

end FuzzyInference
