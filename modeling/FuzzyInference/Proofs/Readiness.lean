import FuzzyInference.Proofs.Failures
import FuzzyInference.Proofs.Outline
import FuzzyInference.Proofs.Success
import FuzzyInference.Proofs.WellFormed

/-!
# What can stop an evaluation

When everything that the rules refer to is there, the only obstacles to inferring them are outputs
without a grid, terms without points, and positions on a grid that have no integer part.
-/

namespace FuzzyInference

open OutputVariable (frame)

variable {α : Type} [Scalar α] {operators : Operators}

/-! ## Rules that refer to what is there -/

theorem Condition.exists_strength_of_found {inputs : List (Variable α)} {condition : Condition}
    (h : ∀ leaf ∈ condition.leaves, ∃ v, inputs.find? (·.name == leaf.name) = some v ∧
      0 ≤ leaf.term ∧ leaf.term < v.terms.length) (pair : NormPair) :
    ∃ a, condition.strength inputs pair = .ok a := by
  refine exists_strength_iff.mpr fun leaf hleaf => ?_
  obtain ⟨v, hv, hterm⟩ := h leaf hleaf
  obtain ⟨t, ht⟩ := Variable.exists_term_iff.mpr hterm
  unfold degree
  rw [hv]
  exact ⟨_, map_eq_ok.mpr ⟨t, ht, rfl⟩⟩

namespace Controller

/-- What can stop the inference of rules that refer to what is there. -/
inductive Obstacle (c : Controller α) : Fault → Prop
  | notDiscretized {o : OutputVariable α} : o ∈ c.outputs → o.isDiscretized = false →
    Obstacle c (.misconfigured (.notDiscretized o.name))
  | noPoints {o : OutputVariable α} {t : Term α} : o ∈ c.outputs → t ∈ o.terms → t.points = [] →
    Obstacle c .outOfBounds
  | noIndex {x : α} {cause : NonFinite} : Scalar.floor? x = .error cause →
    Obstacle c (.noIndex cause)

end Controller

/-! ## Where a rule reaches -/

namespace Rule

theorem fault_of_indexOf {o : OutputVariable α} {x : α} {f : Fault} (hgrid : o.grid.isSome = true)
    (h : o.indexOf x = .error f) : ∃ (y : α) (cause : NonFinite),
      Scalar.floor? y = .error cause ∧ f = .noIndex cause := by
  obtain ⟨grid, hgrid⟩ := Option.isSome_iff_exists.mp hgrid
  unfold OutputVariable.indexOf OutputVariable.delta OutputVariable.grid? at h
  rw [hgrid] at h
  rcases bind_eq_error.mp h with h | ⟨_, -, h⟩
  · cases h
  · rcases bind_eq_error.mp h with h | ⟨step, -, h⟩
    · cases h
    · split at h
      · cases h
      · revert h
        cases hfloor : Scalar.floor? ((x - _) / step + Scalar.billionth) with
        | ok i => exact fun h => by cases h
        | error cause => exact fun h => ⟨_, cause, hfloor, (Except.error.inj h).symm⟩

theorem fault_of_reach {pick : List (Point α) → Option (Point α)}
    (hpick : ∀ points, pick points = none → points = []) {r : Rule α} {o : OutputVariable α}
    {t : Term α} {f : Fault} (ht : o.term r.conclusion.term = .ok t)
    (hgrid : o.grid.isSome = true) (h : r.reach pick o = .error f) :
    (t.points = [] ∧ f = .outOfBounds) ∨ ∃ (y : α) (cause : NonFinite),
      Scalar.floor? y = .error cause ∧ f = .noIndex cause := by
  unfold reach at h
  rw [ht] at h
  dsimp only [bind, Except.bind] at h
  split at h
  · rename_i hpoint
    exact .inl ⟨hpick _ hpoint, (Except.error.inj h).symm⟩
  · exact .inr (fault_of_indexOf hgrid h)

theorem fault_of_accumulate {r : Rule α} {o : OutputVariable α} {t : Term α} {f : Fault}
    (ht : o.term r.conclusion.term = .ok t) (hgrid : o.grid.isSome = true)
    (h : r.accumulate operators o = .error f) :
    (t.points = [] ∧ f = .outOfBounds) ∨ ∃ (y : α) (cause : NonFinite),
      Scalar.floor? y = .error cause ∧ f = .noIndex cause := by
  unfold accumulate at h
  rcases bind_eq_error.mp h with h | ⟨first, -, h⟩
  · exact fault_of_reach (fun _ => List.head?_eq_none_iff.mp) ht hgrid h
  · rcases bind_eq_error.mp h with h | ⟨last, -, h⟩
    · exact fault_of_reach (fun _ => List.getLast?_eq_none_iff.mp) ht hgrid h
    · -- the term and the grid are there
      obtain ⟨grid, hsome⟩ := Option.isSome_iff_exists.mp hgrid
      rw [ht, OutputVariable.grid?_eq_ok.mpr hsome] at h
      cases h

end Rule

/-! ## What inference leaves of an output apart from its heights -/

/-- The outputs differ in heights and crisp values alone. -/
def OutputVariable.SameFrame (o o' : OutputVariable α) : Prop := o'.frame = o.frame

theorem OutputVariable.SameFrame.refl (o : OutputVariable α) : o.SameFrame o := rfl

theorem OutputVariable.frame_accumulate {r : Rule α} {o o' : OutputVariable α}
    (h : r.accumulate operators o = .ok o') : o.SameFrame o' := by
  obtain ⟨first, last, t, grid, -, -, -, hgrid, rfl⟩ := Rule.accumulate_eq_ok.mp h
  unfold SameFrame frame
  rw [hgrid]
  rfl

theorem OutputVariable.frame_prepare {o o' : OutputVariable α}
    (h : Controller.prepare o = .ok o') : o.grid.isSome = true ∧ o.SameFrame o' := by
  obtain ⟨-, grid, hgrid, rfl⟩ := Controller.prepare_eq_ok.mp h
  unfold SameFrame frame
  rw [hgrid]
  exact ⟨rfl, rfl⟩

theorem OutputVariable.SameFrame.isSome_grid {o o' : OutputVariable α} (h : o.SameFrame o') :
    o'.grid.isSome = o.grid.isSome := by
  have := congrArg (fun p => p.grid.isSome) h
  simpa [frame] using this

theorem OutputVariable.isSome_grid_of_frames {outputs outputs' : List (OutputVariable α)}
    (h : outputs'.map frame = outputs.map frame) (hgrids : ∀ o ∈ outputs, o.grid.isSome = true) :
    ∀ o ∈ outputs', o.grid.isSome = true :=
  forall_of_map_eq (fun p q (hpq : q.SameFrame p) hp => hpq.isSome_grid.symm.trans hp) h hgrids

-- What is found among outputs is found, up to heights, among those with the same frames.
theorem OutputVariable.find?_of_frames {outputs outputs' : List (OutputVariable α)}
    (h : outputs'.map frame = outputs.map frame) {name : String} {o : OutputVariable α}
    (ho : outputs.find? (·.name == name) = some o) :
    ∃ o', outputs'.find? (·.name == name) = some o' ∧ o.SameFrame o' :=
  Action.find?_of_map_eq (fun _ _ hxy => congrArg (fun o => o.name == name) hxy) h ho

theorem Rule.moves_infer_frame (operators : Operators) (inputs : List (Variable α)) :
    (Rule.infer operators inputs).Moves fun p q => q.2.map frame = p.2.map frame :=
  (moves_infer (g := fun _ => ()) (fun _ _ _ => rfl)
    fun _ _ _ => OutputVariable.frame_accumulate).mono fun _ _ h => h.2

theorem Rule.moves_sweep_frame (operators : Operators) (inputs : List (Variable α)) :
    (Action.sweep (Rule.infer operators inputs)).Moves fun p q =>
      q.2.map frame = p.2.map frame :=
  (moves_sweep_infer (g := fun _ => ()) (fun _ _ _ => rfl)
    fun _ _ _ => OutputVariable.frame_accumulate).mono fun _ _ h => h.2

namespace Controller

open OutputVariable (SameFrame)

/-- The inputs are the same, and the outputs are up to heights and crisp values. -/
def SameFrames (c c' : Controller α) : Prop :=
  c'.inputs = c.inputs ∧ c'.outputs.map frame = c.outputs.map frame

theorem SameFrames.trans {c d e : Controller α} (h : c.SameFrames d) (h' : d.SameFrames e) :
    c.SameFrames e :=
  ⟨h'.1.trans h.1, h'.2.trans h.2⟩

theorem sameFrames_onEach {act : Action (OutputVariable α) Unit} (h : act.Moves SameFrame) :
    (Action.within Controller.outputs (fun outputs c => { c with outputs })
      (Action.onEach act)).Moves SameFrames :=
  Action.moves_within (Action.moves_onEach_map (g := frame) h) fun _ _ houtputs => ⟨rfl, houtputs⟩

theorem sameFrames_evaluateRules : (evaluateRules (α := α)).Moves SameFrames := by
  have hprepare : (Action.change (prepare (α := α))).Moves SameFrame :=
    Action.moves_change SameFrame.refl fun _ _ ho => (OutputVariable.frame_prepare ho).2
  have hinfer : (inferRules (α := α)).Moves SameFrames :=
    fun c => ⟨rfl, Rule.moves_sweep_frame c.operators c.inputs (c.rules, c.outputs)⟩
  exact Action.moves_bind (R := SameFrames) (fun _ _ _ => SameFrames.trans)
    (sameFrames_onEach hprepare) fun _ => Action.moves_bind (R := SameFrames)
      (fun _ _ _ => SameFrames.trans) hinfer fun _ =>
        sameFrames_onEach (OutputVariable.moves_defuzzify fun _ _ => rfl)

end Controller

/-! ## The part that fails -/

theorem Rule.fails_infer {inputs : List (Variable α)} {r : Rule α}
    {outputs : List (OutputVariable α)} {f : Fault} :
    (infer operators inputs).Fails (r, outputs) f ↔
      r.condition.strength inputs operators.norm = .error f ∨
        ∃ r', r.activate inputs operators.norm = .ok r' ∧
          ((outputs.find? (·.name == r'.conclusion.name) = none ∧
              f = .unknownVariable r'.conclusion.name) ∨
            ∃ o, outputs.find? (·.name == r'.conclusion.name) = some o ∧
              r'.accumulate operators o = .error f) := by
  have hactivate : r.activate inputs operators.norm = .error f ↔
      r.condition.strength inputs operators.norm = .error f := by
    unfold activate
    cases r.condition.strength inputs operators.norm <;> simp [Except.map]
  unfold infer
  simp only [Action.fails_bind, Action.fails_within, Action.fails_change, Action.leads_within,
    Action.leads_look, Action.fails_onFirst, hactivate]
  constructor
  · rintro (h | ⟨_, _, ⟨r', hr', rfl⟩, h | ⟨_, _, ⟨rfl, rfl⟩, h⟩⟩)
    · exact .inl h
    · cases h
    · exact .inr ⟨r', Action.leads_change.mp hr', h⟩
  · rintro (h | ⟨r', hr', h⟩)
    · exact .inl h
    · exact .inr ⟨_, _, ⟨r', Action.leads_change.mpr hr', rfl⟩, .inr ⟨_, _, ⟨rfl, rfl⟩, h⟩⟩

namespace Controller

variable {c c' : Controller α} {f : Fault}

theorem prepare_eq_error {o : OutputVariable α} : prepare o = .error f ↔
    o.isDiscretized = false ∧ f = .misconfigured (.notDiscretized o.name) := by
  unfold prepare
  cases hready : o.isDiscretized with
  | false => simp [eq_comm]
  | true =>
    obtain ⟨grid, hgrid⟩ := Option.isSome_iff_exists.mp (Bool.and_eq_true_iff.mp hready).1
    unfold OutputVariable.reset
    rw [OutputVariable.grid?_eq_ok.mpr hgrid]
    simp [Except.map]

theorem exists_prepare_iff {o : OutputVariable α} :
    (∃ o', prepare o = .ok o') ↔ o.isDiscretized = true := by
  refine ⟨fun ⟨o', h⟩ => (prepare_eq_ok.mp h).1, fun hready => ?_⟩
  obtain ⟨grid, hgrid⟩ := Option.isSome_iff_exists.mp (Bool.and_eq_true_iff.mp hready).1
  exact ⟨_, prepare_eq_ok.mpr ⟨hready, grid, hgrid, rfl⟩⟩

theorem exists_of_fails_prepareAll (h : prepareAll.Fails c f) :
    ∃ o ∈ c.outputs, o.isDiscretized = false ∧ f = .misconfigured (.notDiscretized o.name) := by
  obtain ⟨o, ho, hfault⟩ := Action.exists_of_fails_onEach (Action.fails_within.mp h)
  exact ⟨o, ho, prepare_eq_error.mp (Action.fails_change.mp hfault)⟩

/-- Preparing outputs needs their grids and keeps their frames. -/
theorem frames_of_mapM_prepare {outputs prepared : List (OutputVariable α)}
    (h : outputs.mapM prepare = .ok prepared) :
    (∀ o ∈ outputs, o.grid.isSome = true) ∧ prepared.map frame = outputs.map frame := by
  constructor
  · intro o ho
    obtain ⟨o', -, ho'⟩ := exists_mem_of_mapM_eq_ok h ho
    exact (OutputVariable.frame_prepare ho').1
  · exact Action.map_eq_of_forall₂ (R := fun o o' => prepare o = .ok o')
      (fun _ _ ho => (OutputVariable.frame_prepare ho).2) (mapM_eq_ok.mp h)

theorem not_fails_settleAll (hgrids : ∀ o ∈ c.outputs, o.grid.isSome = true) :
    ¬ settleAll.Fails c f := by
  intro h
  obtain ⟨o, ho, hfault⟩ := Action.exists_of_fails_onEach (Action.fails_within.mp h)
  obtain ⟨grid, hgrid⟩ := Option.isSome_iff_exists.mp (hgrids o ho)
  have hsettle : o.settle = .ok { o with crisp := (o.centre grid).1 } :=
    map_eq_ok.mpr ⟨grid, OutputVariable.grid?_eq_ok.mpr hgrid, rfl⟩
  exact (OutputVariable.leads_defuzzify.mpr hsettle).not_fails hfault

-- The outputs that are settled have the grids of those that were prepared.
theorem isSome_grid_of_inferRules {prepared : List (OutputVariable α)}
    (hprepare : c.outputs.mapM prepare = .ok prepared)
    (h : inferRules.Leads { c with outputs := prepared } c' ()) :
    ∀ o ∈ c'.outputs, o.grid.isSome = true := by
  obtain ⟨hgrids, hframes⟩ := frames_of_mapM_prepare hprepare
  have hkept : c'.outputs.map frame = prepared.map frame := by
    rw [← h.state_eq]
    exact Rule.moves_sweep_frame c.operators c.inputs (c.rules, prepared)
  exact OutputVariable.isSome_grid_of_frames (hkept.trans hframes) hgrids

/-- An evaluation fails where an output cannot be prepared or a rule cannot be inferred. Turning the
accumulated sets into numbers never fails. -/
theorem fails_evaluateRules : evaluateRules.Fails c f ↔ prepareAll.Fails c f ∨
    ∃ prepared, c.outputs.mapM prepare = .ok prepared ∧
      (Action.sweep (Rule.infer c.operators c.inputs)).Fails (c.rules, prepared) f := by
  rw [evaluateRules_eq, Action.fails_bind]
  refine or_congr_right ?_
  constructor
  · rintro ⟨c₁, _, hprepare, h⟩
    obtain ⟨prepared, hprepared, rfl⟩ := leads_prepareAll.mp hprepare
    rcases Action.fails_bind.mp h with h | ⟨c₂, _, hinfer, h⟩
    · exact ⟨prepared, hprepared, h⟩
    · exact absurd h (not_fails_settleAll (isSome_grid_of_inferRules hprepared hinfer))
  · rintro ⟨prepared, hprepared, h⟩
    exact ⟨_, (), leads_prepareAll.mpr ⟨prepared, hprepared, rfl⟩, Action.fails_bind.mpr (.inl h)⟩

/-- An evaluation for given values fails where a reading or the evaluation of the rules fails. -/
theorem fails_evaluate {division : Division} {values : List (String × α)} :
    (evaluate division values).Fails c f ↔
      (Action.forEach (readingsOf division values) take).Fails c f ∨
        ∃ d, (Action.forEach (readingsOf division values) take).Leads c d () ∧
          evaluateRules.Fails d f := by
  unfold evaluate readingsOf
  rw [Action.fails_bind, Action.forEach_map]
  refine or_congr_right ?_
  constructor
  · rintro ⟨d, _, hread, h⟩
    rcases Action.fails_bind.mp h with h | ⟨_, _, -, h⟩
    · exact ⟨d, hread, h⟩
    · -- the crisp values can always be asked for
      cases Action.fails_ask.mp h
  · rintro ⟨d, hread, h⟩
    exact ⟨d, (), hread, Action.fails_bind.mpr (.inl h)⟩

/-- A rule that refers to what is there, on outputs that are those of `c` up to heights. -/
theorem obstacle_of_infer {r : Rule α} {outputs : List (OutputVariable α)} (hr : c.Valid r)
    (hgrids : ∀ o ∈ c.outputs, o.grid.isSome = true)
    (hframes : outputs.map frame = c.outputs.map frame)
    (h : (Rule.infer operators c.inputs).Fails (r, outputs) f) : c.Obstacle f := by
  rcases Rule.fails_infer.mp h with hfault | ⟨r', hactivated, hfault⟩
  · -- the condition has a strength
    obtain ⟨a, ha⟩ := Condition.exists_strength_of_found hr.leaves operators.norm
    cases ha.symm.trans hfault
  · have hconclusion : r'.conclusion = r.conclusion :=
      congrArg (·.conclusion) (Rule.fresh_of_activate hactivated)
    -- the output that `c` has under the concluded name
    obtain ⟨o, ho, hterm⟩ := hr.conclusion
    rw [← hconclusion] at ho hterm
    obtain ⟨o', ho', hframe⟩ := OutputVariable.find?_of_frames hframes ho
    rcases hfault with ⟨hnone, -⟩ | ⟨_, hsome, hfault⟩
    · cases hnone.symm.trans ho'
    · obtain rfl := Option.some.inj (ho'.symm.trans hsome)
      have hmem := List.mem_of_find?_eq_some ho
      have hvariable : o'.toVariable = o.toVariable := congrArg (·.toVariable) hframe
      have hgrid := hframe.isSome_grid.trans (hgrids o hmem)
      obtain ⟨t, ht⟩ := Variable.exists_term_iff.mpr hterm
      have ht' : o'.term r'.conclusion.term = .ok t := by rw [hvariable, ht]
      rcases Rule.fault_of_accumulate ht' hgrid hfault with
        ⟨hpoints, rfl⟩ | ⟨y, cause, hfloor, rfl⟩
      · exact .noPoints hmem (List.mem_of_getElem? (Variable.term_eq_ok.mp ht).2) hpoints
      · exact .noIndex hfloor

/-- When everything that the rules refer to is there, inferring them fails only where an output has
no grid, a term has no points, or a position has no integer part. -/
theorem obstacle_of_evaluateRules (hvalid : ∀ r ∈ c.rules, c.Valid r)
    (h : evaluateRules.Fails c f) : c.Obstacle f := by
  rcases fails_evaluateRules.mp h with h | ⟨prepared, hprepared, h⟩
  · obtain ⟨o, ho, hready, rfl⟩ := exists_of_fails_prepareAll h
    exact .notDiscretized ho hready
  · obtain ⟨hgrids, hframes⟩ := frames_of_mapM_prepare hprepared
    obtain ⟨before, r, after, rules, outputs, hrules, hbefore, hr⟩ := Action.fails_sweep.mp h
    have hkept := Rule.moves_sweep_frame c.operators c.inputs (before, prepared)
    rw [hbefore.state_eq] at hkept
    have hmem : r ∈ c.rules := by rw [hrules]; simp
    exact obstacle_of_infer (hvalid r hmem) hgrids (hkept.trans hframes) hr

end Controller

end FuzzyInference
