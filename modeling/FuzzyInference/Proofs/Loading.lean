import FuzzyInference.Proofs.Diagnosis
import FuzzyInference.Proofs.GridSizes
import FuzzyInference.Proofs.Runnable
import FuzzyInference.Proofs.SideBySide
import FuzzyInference.Proofs.TextOrder

/-!
# Loading a text into a controller

A text whose names are new puts its variables and rules behind those of the controller that it is
read into.  Every rule of a controller concludes on one of its outputs, so the rules of the text are
none of those that are there, and they leave the earlier outputs alone when all rules are inferred.
-/

namespace FuzzyInference

variable {α : Type}

namespace Controller

/-! ## What rules conclude on -/

/-- Every rule concludes on an output of the controller. -/
def Concluding (c : Controller α) : Prop :=
  ∀ r ∈ c.rules, r.conclusion.name ∈ c.outputs.map (·.name)

/-- If the rules of `c` conclude on outputs of `c`, then so do those of `c'`. -/
def KeepsConcluding (c c' : Controller α) : Prop := c.Concluding → c'.Concluding

variable {c c' : Controller α}

theorem Valid.concludes {r : Rule α} (h : c.Valid r) :
    r.conclusion.name ∈ c.outputs.map (·.name) := by
  obtain ⟨o, ho, -⟩ := h.conclusion
  exact isSome_output?.mp (Option.isSome_iff_exists.mpr ⟨o, ho⟩)

theorem Concluding.of_names (hc : c.Concluding) (hrules : c'.rules = c.rules)
    (hnames : c.outputs.map (·.name) ⊆ c'.outputs.map (·.name)) : c'.Concluding := by
  intro r hr
  rw [hrules] at hr
  exact hnames (hc r hr)

theorem Concluding.of_alike (hc : c.Concluding) (h : c.Alike c') : c'.Concluding := by
  have hrules : c'.rules.map Rule.outline = c.rules.map Rule.outline := congrArg Outline.rules h.2
  have hnames : c'.outputs.map (·.name) = c.outputs.map (·.name) := by
    have houtputs := congrArg (fun o => o.outputs.map fun p => p.1.1) h.2
    simp only [outline, List.map_map] at houtputs
    exact houtputs
  have hconcludes : ∀ r ∈ c.rules, r.conclusion.name ∈ c'.outputs.map (·.name) := hnames ▸ hc
  refine forall_of_map_eq (fun r s hrs hr => ?_) hrules hconcludes
  have hconclusion : r.conclusion = s.conclusion := congrArg Prod.snd hrs
  exact hconclusion ▸ hr

theorem keepsConcluding_change {f : Controller α → Except Fault (Controller α)}
    (h : ∀ c c', f c = .ok c' → c.KeepsConcluding c') :
    (Action.change f).Moves KeepsConcluding :=
  Action.moves_change (fun _ => id) h

variable [Scalar α]

theorem keepsConcluding_addRule (r : Rule α) : (addRule r).Moves KeepsConcluding := by
  intro c hc
  unfold addRule
  split
  · exact hc
  · rename_i hr
    split
    · exact hc
    · exact List.forall_mem_append.mpr
        ⟨hc, List.forall_mem_singleton.mpr (checkRule_eq_ok.mp hr).concludes⟩

theorem keepsConcluding_readFcl (text : List Char) :
    (readFcl (α := α) text).Moves KeepsConcluding := by
  intro base hbase
  by_cases h : (Fcl.readFor base text).answer = .ok () ∧
      ∀ name ∈ (Fcl.readFor base text).state.controller.names, name ∉ base.names
  · obtain ⟨notices, hread⟩ := Fcl.readFcl_of_disjoint h.1 h.2
    rw [hread]
    intro r hr
    show r.conclusion.name ∈ (base.outputs ++ _).map (·.name)
    rw [List.map_append]
    rcases List.mem_append.mp ((sublist_foldl_withRule base.rules _).subset hr) with hr | hr
    · exact List.mem_append_left _ (hbase r hr)
    · exact List.mem_append_right _ ((Fcl.readFor_sound base text).rules r hr).concludes
  · obtain ⟨notices, fault, hread⟩ := Fcl.readFcl_of_not_disjoint h
    rw [hread]
    exact hbase

/-- No operation leaves a rule without its output. -/
theorem keepsConcluding_run (operation : Operation α) : operation.run.Moves KeepsConcluding := by
  have halike {c c' : Controller α} (h : c.Alike c') : c.KeepsConcluding c' :=
    fun hc => hc.of_alike h
  cases operation with
  | addInput v =>
    refine keepsConcluding_change fun c c' h hc => ?_
    obtain ⟨-, rfl⟩ := addInput_eq_ok.mp h
    exact hc
  | addOutput name terms resolution method defaultValue =>
    refine keepsConcluding_change fun c c' h hc => ?_
    obtain ⟨o, -, hadd⟩ := bind_eq_ok.mp h
    obtain ⟨-, rfl⟩ := addOutput_eq_ok.mp hadd
    exact hc.of_names rfl (List.map_subset _ (List.subset_append_left _ _))
  | addRule condition conclusion => exact keepsConcluding_addRule _
  | setRules rules =>
    refine moves_replaceRules (fun _ => id) fun c hchecked hc r hr => ?_
    have hmem := (sublist_foldl_withRule [] _).subset hr
    exact (checkRule_eq_ok.mp (hchecked r hmem)).concludes
  | clearRules => exact fun c _ r hr => absurd hr List.not_mem_nil
  | setAnd _ | setOr _ | setActivation _ | setAccumulation _ =>
    exact Action.moves_change_map (fun _ => id) fun _ _ => id
  | rename name => exact fun c hc => hc
  | discretize => exact alike_discretize.mono fun _ _ => halike
  | fuzzify name x => exact (alike_fuzzify .checked name x).mono fun _ _ => halike
  | evaluateRules => exact alike_evaluateRules.mono fun _ _ => halike
  | evaluate values =>
    exact Action.moves_bind (R := KeepsConcluding) (fun _ _ _ h h' => h' ∘ h)
      ((alike_evaluate .checked values).mono fun _ _ => halike) fun _ _ => id
  | readFcl text => exact keepsConcluding_readFcl text
  | onInput name operation => exact fun c hc => hc
  | onOutput name operation =>
    refine Action.moves_within
      (Action.moves_onFirst OutputVariable.SameName.refl operation.run_name) ?_
    intro c outputs h hc
    have hnames : outputs.map (·.name) = c.outputs.map (·.name) :=
      Action.map_eq_of_forall₂ (fun _ _ ho => ho) h
    exact hc.of_names rfl (hnames ▸ List.Subset.refl _)

theorem Reachable.concluding (h : c.Reachable) : c.Concluding := by
  induction h with
  | empty name hconfig => exact fun r hr => absurd hr List.not_mem_nil
  | @step c operation _ ih => exact keepsConcluding_run operation c ih

/-! ## What a text puts behind -/

-- Rules that conclude on outputs with new names are none of those that are there.
theorem foldl_withRule_of_new {base added : Controller α} (hbase : base.Concluding)
    (hrules : RulesDistinct base.rules) (hadded : added.Concluding)
    (hdistinct : RulesDistinct added.rules) (hnew : ∀ name ∈ added.names, name ∉ base.names) :
    added.rules.foldl Fcl.withRule base.rules = base.rules ++ added.rules := by
  apply foldl_withRule_of_distinct
  refine List.pairwise_append.mpr ⟨hrules, hdistinct, fun r hr s hs => ?_⟩
  have hne : r.conclusion.name ≠ s.conclusion.name := by
    intro hsame
    apply hnew _ (List.mem_append_right _ (hadded s hs))
    exact List.mem_append_right _ (hsame ▸ hbase r hr)
  unfold Rule.equivalent
  rw [beq_eq_false_iff_ne.mpr hne, Bool.and_false, Bool.false_and, Bool.false_and]

/-- What the text says comes behind what the controller has. -/
structure Extended (base added c : Controller α) : Prop where
  config : c.config = base.config
  inputs : c.inputs = base.inputs ++ added.inputs
  outputs : c.outputs = base.outputs ++ added.outputs
  rules : c.rules = base.rules ++ added.rules
  operators : c.operators = added.operators
  concludes : ∀ r ∈ added.rules, r.conclusion.name ∉ base.outputs.map (·.name)

variable {base : Controller α} {text : List Char} {notices : List Notice}

theorem extended_of_readFcl (hbase : base.Concluding) (hrules : RulesDistinct base.rules)
    (h : base.readFcl text = ⟨c, notices, .ok ()⟩) :
    (Fcl.readFor base text).answer = .ok () ∧
      base.Extended (Fcl.readFor base text).state.controller c := by
  by_cases hread : (Fcl.readFor base text).answer = .ok () ∧
      ∀ name ∈ (Fcl.readFor base text).state.controller.names, name ∉ base.names
  · obtain ⟨hanswer, hnew⟩ := hread
    obtain ⟨_, hjoined⟩ := Fcl.readFcl_of_disjoint hanswer hnew
    obtain ⟨rfl, -, -⟩ := Outcome.mk.inj (hjoined.symm.trans h)
    have hkept := Fcl.kept_readLines (Fcl.linesOf text)
      (Fcl.Progress.kept_start base.config base.operators)
    have hadded : (Fcl.readFor base text).state.controller.Concluding :=
      fun r hr => (hkept.sound.rules r hr).concludes
    refine ⟨hanswer, rfl, rfl, rfl,
      foldl_withRule_of_new hbase hrules hadded hkept.distinct hnew, rfl, fun r hr hmem => ?_⟩
    exact hnew _ (List.mem_append_right _ (hadded r hr)) (List.mem_append_right _ hmem)
  · obtain ⟨_, fault, hleft⟩ := Fcl.readFcl_of_not_disjoint hread
    cases hleft.symm.trans h

omit [Scalar α] in
theorem Extended.beside {added : Controller α} (h : base.Extended added c)
    (hoperators : added.operators = base.operators) : base.Beside c where
  inputs := h.inputs ▸ List.prefix_append _ _
  outputs := h.outputs ▸ List.prefix_append _ _
  rules := ⟨added.rules, h.rules, h.concludes⟩
  operators := h.operators.trans hoperators

/-- What a text makes by itself is what its lines say. -/
theorem readFcl_emptied_eq (h : (Fcl.readFor base text).answer = .ok ()) : ∃ notices,
    base.emptied.readFcl text = ⟨(Fcl.readFor base text).state.controller, notices, .ok ()⟩ := by
  have hread : (Fcl.readFor base.emptied text).answer = .ok () := h
  obtain ⟨notices, hjoined⟩ := Fcl.readFcl_of_disjoint hread fun _ _ => List.not_mem_nil
  have hkept := Fcl.kept_readLines (Fcl.linesOf text)
    (Fcl.Progress.kept_start base.config base.operators)
  refine ⟨notices, hjoined.trans ?_⟩
  rw [show Fcl.merged base.emptied (Fcl.readFor base.emptied text).state.controller =
    (Fcl.readFor base text).state.controller from Fcl.merged_ofConfig hkept.config hkept.distinct]

/-- Loading a text without settings does not disturb what is there.  What the text makes by itself
comes behind the variables and rules of the controller, in the order of its lines, and the settings
stay.  An evaluation with values for earlier inputs gives the earlier outputs the grids and crisp
values that it gives them without the text, whether the text is loaded before any evaluation or
after one. -/
theorem readFcl_undisturbed (hbase : base.Reachable)
    (h : base.readFcl text = ⟨c, notices, .ok ()⟩)
    (hsettings : ∀ place ∈ Fcl.placed none (Fcl.linesOf text), ¬Fcl.IsSetting place) :
    (∃ added more, base.emptied.readFcl text = ⟨added, more, .ok ()⟩ ∧
      c.inputs = base.inputs ++ added.inputs ∧ c.outputs = base.outputs ++ added.outputs ∧
      c.rules = base.rules ++ added.rules ∧
      added.inputs.map (·.name) = Fcl.declarationsIn .inputs (Fcl.linesOf text) ∧
      added.outputs.map (·.name) = Fcl.declarationsIn .outputs (Fcl.linesOf text) ∧
      added.rules = firstOfEach Rule.equivalent (Fcl.rulesIn added (Fcl.linesOf text))) ∧
    c.operators = base.operators ∧ c.config = base.config ∧
    ∀ division values b crisp, (evaluate division values).Leads base b crisp →
      (∀ e crisp', (evaluate division values).Leads c e crisp' → b.outputs <+: e.outputs) ∧
      ∀ d notices' e crisp', b.readFcl text = ⟨d, notices', .ok ()⟩ →
        (evaluate division values).Leads d e crisp' → b.outputs <+: e.outputs := by
  obtain ⟨-, -, hdistinct⟩ := hbase.kept
  obtain ⟨hread, hextended⟩ := extended_of_readFcl hbase.concluding hdistinct h
  obtain ⟨hinputs, houtputs, hrules, hoperators⟩ := Fcl.readFor_in_order hread
  have hkept := hoperators hsettings
  obtain ⟨more, halone⟩ := readFcl_emptied_eq hread
  refine ⟨⟨_, more, halone, hextended.inputs, hextended.outputs, hextended.rules, hinputs, houtputs,
    hrules⟩, hextended.operators.trans hkept, hextended.config, ?_⟩
  intro division values b crisp hb
  refine ⟨fun e crisp' he => (hextended.beside hkept).evaluate hb he,
    fun d notices' e crisp' hd he => ?_⟩
  -- the text is read behind the first evaluation, and a second one repeats what the first gave
  have halike : base.Alike b := hb.state_eq ▸ alike_evaluate division values base
  obtain ⟨hread', hextended'⟩ := extended_of_readFcl (hbase.concluding.of_alike halike)
    (halike.keeps.rules hdistinct) hd
  obtain ⟨-, -, -, hoperators'⟩ := Fcl.readFor_in_order hread'
  obtain ⟨b', hagain, hsame⟩ := exists_evaluate_again hbase.gridded hb
  exact hsame ▸ (hextended'.beside (hoperators' hsettings)).evaluate hagain he

/-- What sets up a heater for a room. -/
def roomOperations : List (Operation Rat) := [
  .addInput ⟨"room", [.ofPoints "cold" [⟨0, 1⟩]]⟩,
  .addOutput "heat" [.ofPoints "high" [⟨2, 1⟩]] (.integer 1) (.text "COG") (.real 0),
  .addRule (.is ⟨"room", 0, false⟩) ⟨"heat", 0, 1⟩,
  .discretize]

/-- A heater for a room. -/
def roomHeater : Controller Rat :=
  roomOperations.foldl (fun c operation => (operation.run c).state) (.ofConfig lampConfig "")

set_option maxRecDepth 100000 in
theorem readFcl_undisturbed_roomHeater : ∃ c notices b e,
    roomHeater.Reachable ∧ roomHeater.readFcl lampText = ⟨c, notices, .ok ()⟩ ∧
      (∀ place ∈ Fcl.placed none (Fcl.linesOf lampText), ¬Fcl.IsSetting place) ∧
      (evaluate .total [("room", 5)]).Leads roomHeater b [("heat", 2)] ∧
      (evaluate .total [("room", 5)]).Leads c e [("heat", 2), ("lamp", 0)] ∧
      b.outputs <+: e.outputs ∧ c.operators = roomHeater.operators ∧
      ∃ added : Controller Rat, c.rules = roomHeater.rules ++ added.rules ∧
        added.outputs.map (·.name) = Fcl.declarationsIn .outputs (Fcl.linesOf lampText) := by
  have hsound : lampConfig.Sound := ⟨⟨[("num_discretes", .integer 1)], rfl⟩, 0, rfl⟩
  have hreachable : roomHeater.Reachable := (Reachable.empty "" hsound).foldl_run roomOperations
  have hbefore : (evaluate .total [("room", 5)] roomHeater).answer = .ok [("heat", 2)] := by cbv
  have hafter : (fun o => (o.answer, (evaluate .total [("room", 5)] o.state).answer))
      (roomHeater.readFcl lampText) = (.ok (), .ok [("heat", 2), ("lamp", 0)]) := by cbv
  have hplain : (Fcl.placed none (Fcl.linesOf lampText)).all
      (fun place => decide (¬Fcl.IsSetting place)) = true := by cbv
  have hsettings : ∀ place ∈ Fcl.placed none (Fcl.linesOf lampText), ¬Fcl.IsSetting place :=
    fun place hplace => of_decide_eq_true (List.all_eq_true.mp hplain place hplace)
  generalize hrun : roomHeater.readFcl lampText = run at hafter
  obtain ⟨c, notices, answer⟩ := run
  obtain ⟨rfl, hcrisp⟩ := Prod.mk.inj hafter
  obtain ⟨⟨added, -, -, -, -, hrules, -, houtputs, -⟩, hoperators, -, hevaluate⟩ :=
    readFcl_undisturbed hreachable hrun hsettings
  have hb := Action.leads_of_answer hbefore
  have he := Action.leads_of_answer hcrisp
  exact ⟨c, notices, _, _, hreachable, rfl, hsettings, hb, he, (hevaluate _ _ _ _ hb).1 _ _ he,
    hoperators, added, hrules, houtputs⟩

end Controller

end FuzzyInference
