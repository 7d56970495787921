import FuzzyInference.Proofs.Failures
import FuzzyInference.Proofs.Freshness
import FuzzyInference.Proofs.Points
import FuzzyInference.Proofs.Reachable

/-!
# What has been read so far

Whatever the order of the blocks, what has been read so far is well formed: its terms run through
points, and an output that has been described has a grid, unless the block that describes it is
still open.
-/

namespace FuzzyInference

variable {α : Type}

theorem Action.mem_onFirst {ρ β : Type} {found : ρ → Bool} {missing : Fault} {act : Action ρ β}
    {items : List ρ} {y : ρ} (h : y ∈ (onFirst found missing act items).state) :
    y ∈ items ∨ ∃ x ∈ items, found x = true ∧ y = (act x).state := by
  induction items with
  | nil => cases h
  | cons x rest ih =>
    unfold onFirst at h
    split at h
    · rename_i hx
      rcases List.mem_cons.mp h with rfl | h
      · exact .inr ⟨x, List.mem_cons_self, hx, rfl⟩
      · exact .inl (List.mem_cons_of_mem x h)
    · rcases List.mem_cons.mp h with rfl | h
      · exact .inl List.mem_cons_self
      · rcases ih h with hmem | ⟨z, hz, hfound, heq⟩
        · exact .inl (List.mem_cons_of_mem x hmem)
        · exact .inr ⟨z, List.mem_cons_of_mem x hz, hfound, heq⟩

-- An output that is found by its name is the first of that name.
theorem Controller.split_of_output? {c : Controller α} {name : String} {o : OutputVariable α}
    (h : c.output? name = some o) : o.name = name ∧ ∃ before after,
      c.outputs = before ++ o :: after ∧ o.name ∉ before.map (·.name) := by
  obtain ⟨hname, before, after, hc, hbefore⟩ := List.find?_eq_some_iff_append.mp h
  have hname : o.name = name := beq_iff_eq.mp hname
  refine ⟨hname, before, after, hc, fun hmem => ?_⟩
  obtain ⟨p, hp, hsame⟩ := List.mem_map.mp hmem
  have := hbefore p hp
  rw [hsame, hname, beq_self_eq_true] at this
  cases this

variable [Scalar α]

/-! ## Grids that have just been built -/

theorem OutputVariable.isDiscretized_of_discretize {o o' : OutputVariable α}
    (h : o.discretize = .ok o') : o'.terms ≠ [] ∧ o'.isDiscretized = true := by
  obtain ⟨hterms, domains, terms, hdomains, hsampled, rfl⟩ := discretize_eq_ok.mp h
  have hdomains_ne := Term.domains_ne_nil hterms hdomains
  constructor
  · show terms ≠ []
    intro hnil
    rw [mapM_eq_ok, hnil, List.forall₂_nil_right_iff] at hsampled
    exact hterms hsampled
  · refine Bool.and_eq_true_iff.mpr ⟨rfl, List.all_eq_true.mpr fun t ht => ?_⟩
    -- a sample for each point of the grid
    obtain ⟨t₀, -, hsample⟩ := mem_of_mapM_eq_ok hsampled ht
    obtain ⟨samples, hsamples, rfl⟩ := Term.sampleOn_eq_ok.mp hsample
    rw [beq_iff_eq]
    exact (mapM_eq_ok.mp hsamples).length_eq.symm.trans (length_span hdomains_ne _)

/-! ## Terms that are drawn -/

theorem Term.Drawn.points_ne_nil {t : Term α} (h : t.Drawn) : t.points ≠ [] := by
  obtain ⟨points, hne, heq⟩ := h
  rw [heq]
  exact fun hnil => hne (Point.sort_eq_nil.mp hnil)

/-- All terms of the controller are drawn. -/
structure Controller.Drawn (c : Controller α) : Prop where
  inputs : ∀ v ∈ c.inputs, ∀ t ∈ v.terms, t.Drawn
  outputs : ∀ o ∈ c.outputs, ∀ t ∈ o.terms, t.Drawn

theorem Term.Drawn.of_outline {t t' : Term α} (h : t'.outline = t.outline) (ht : t.Drawn) :
    t'.Drawn := by
  have hpoints : t'.points = t.points := congrArg Prod.snd h
  unfold Drawn
  rwa [hpoints]

-- A further term that is drawn.
theorem drawn_addTerm {v : Variable α} {t : Term α} (hv : ∀ s ∈ v.terms, s.Drawn) (ht : t.Drawn) :
    ∀ s ∈ (v.addTerm t).terms, s.Drawn :=
  List.forall_mem_append.mpr ⟨hv, List.forall_mem_singleton.mpr ht⟩

theorem OutputVariable.drawn_of_outline {o o' : OutputVariable α} (h : o'.outline = o.outline)
    (ho : ∀ t ∈ o.terms, t.Drawn) : ∀ t ∈ o'.terms, t.Drawn := by
  have hterms : o'.terms.map Term.outline = o.terms.map Term.outline :=
    congrArg (fun p => p.1.2) h
  exact forall_of_map_eq (fun s t hst hs => hs.of_outline hst.symm) hterms ho

theorem Controller.variables_addRule (r : Rule α) (c : Controller α) :
    (addRule r c).state.inputs = c.inputs ∧ (addRule r c).state.outputs = c.outputs := by
  unfold addRule
  split
  · exact ⟨rfl, rfl⟩
  · split
    · exact ⟨rfl, rfl⟩
    · exact ⟨rfl, rfl⟩

namespace Fcl

variable {p p' : Progress α} {config : Config α}

theorem terms_of_declaredOutput {name : String} {o : OutputVariable α}
    (h : declaredOutput config name = .ok o) : o.name = name ∧ o.terms = [] := by
  obtain ⟨default, -, h⟩ := bind_eq_ok.mp h
  obtain ⟨count, -, h⟩ := bind_eq_ok.mp h
  obtain ⟨chosen, -, h⟩ := bind_eq_ok.mp h
  rw [← Except.ok.inj h]
  exact ⟨rfl, rfl⟩

omit [Scalar α] in
-- What every output satisfies and `f` keeps is satisfied by every output after a change by `f`.
theorem forall_changeOutput {P : OutputVariable α → Prop} {c : Controller α} {name : String}
    {f : OutputVariable α → OutputVariable α} (hf : ∀ o, o.name = name → P o → P (f o))
    (hc : ∀ o ∈ c.outputs, P o) : ∀ o ∈ (changeOutput c name f).outputs, P o := by
  intro o' ho'
  rcases Action.mem_onFirst ho' with ho' | ⟨o, ho, hname, rfl⟩
  · exact hc o' ho'
  · exact hf o (beq_iff_eq.mp hname) (hc o ho)

omit [Scalar α] in
theorem forall_changeInput {P : Variable α → Prop} {c : Controller α} {name : String}
    {f : Variable α → Variable α} (hf : ∀ v, P v → P (f v)) (hc : ∀ v ∈ c.inputs, P v) :
    ∀ v ∈ (changeInput c name f).inputs, P v := by
  intro v' hv'
  rcases Action.mem_onFirst hv' with hv' | ⟨v, hv, -, rfl⟩
  · exact hc v' hv'
  · exact hf v (hc v hv)

/-- The outputs after the grid of one of them has been built. -/
theorem exists_built {c : Controller α} {name : String} {o : OutputVariable α}
    (hfound : c.output? name = some o)
    (hbuilt : (Controller.onOutput name (.unknownVariable name) OutputVariable.buildGrid
      c).answer = .ok ()) :
    ∃ o' before after, o.discretize = .ok o' ∧ c.outputs = before ++ o :: after ∧
      (Controller.onOutput name (.unknownVariable name) OutputVariable.buildGrid c).state =
        { c with outputs := before ++ o' :: after } := by
  obtain ⟨rfl, before, after, hc, hbefore⟩ := Controller.split_of_output? hfound
  rw [OutputVariable.buildGrid_eq, Controller.onOutput_append hc hbefore] at hbuilt ⊢
  obtain ⟨o', ho'⟩ : ∃ o', o.discretize = .ok o' := by
    cases h : o.discretize with
    | ok o' => exact ⟨o', rfl⟩
    | error f => exact absurd (Action.fails_change.mpr h) (Action.leads_of_answer hbuilt).not_fails
  refine ⟨o', before, after, ho', hc, ?_⟩
  rw [Action.change_of_ok ho']

/-! ## What every step keeps -/

theorem Progress.Step.keeps (h : p.Step p') : p.controller.Keeps p'.controller := by
  rcases h.controller with ⟨hgrows, hconfig⟩ | ⟨v, hadd⟩ | ⟨o, hadd⟩ | ⟨r, hrule⟩
  · exact .of_names hconfig hgrows.names_eq hgrows.rules
  · exact Controller.keeps_addInput hadd
  · exact Controller.keeps_addOutput hadd
  · rw [hrule]
    exact Controller.keeps_addRule r p.controller

theorem Progress.Step.names_subset (h : p.Step p') :
    p.controller.names ⊆ p'.controller.names := by
  rcases h.controller with ⟨hgrows, -⟩ | ⟨v, hadd⟩ | ⟨o, hadd⟩ | ⟨r, hrule⟩
  · rw [hgrows.names_eq]
    exact List.Subset.refl _
  · obtain ⟨-, hadded⟩ := Controller.addInput_eq_ok.mp hadd
    rw [hadded]
    intro name hname
    simp only [Controller.names, List.map_append, List.mem_append] at hname ⊢
    tauto
  · obtain ⟨-, hadded⟩ := Controller.addOutput_eq_ok.mp hadd
    rw [hadded]
    intro name hname
    simp only [Controller.names, List.map_append, List.mem_append] at hname ⊢
    tauto
  · obtain ⟨hinputs, houtputs⟩ := Controller.variables_addRule r p.controller
    unfold Controller.names
    rw [hrule, hinputs, houtputs]
    exact List.Subset.refl _

theorem Progress.Step.drawn (h : p.Step p') (hp : p.controller.Drawn) : p'.controller.Drawn := by
  cases h with
  | set name operators => exact ⟨hp.inputs, hp.outputs⟩
  | enter hopen hblock => exact hp
  | leave hopen hblock => exact hp
  | describeInput hopen hnew hname => exact hp
  | describeOutput hopen hnew hname => exact hp
  | declareInput hadd =>
    obtain ⟨-, rfl⟩ := Controller.addInput_eq_ok.mp hadd
    refine ⟨List.forall_mem_append.mpr ⟨hp.inputs, List.forall_mem_singleton.mpr ?_⟩, hp.outputs⟩
    exact fun t ht => absurd ht List.not_mem_nil
  | @declareOutput name o c hname hcreate hadd =>
    obtain ⟨-, rfl⟩ := Controller.addOutput_eq_ok.mp hadd
    refine ⟨hp.inputs, List.forall_mem_append.mpr ⟨hp.outputs, List.forall_mem_singleton.mpr ?_⟩⟩
    rw [(terms_of_declaredOutput hcreate).2]
    exact fun t ht => absurd ht List.not_mem_nil
  | inputTerm hopen hterm =>
    exact ⟨forall_changeInput (fun v hv => drawn_addTerm hv hterm) hp.inputs, hp.outputs⟩
  | outputTerm hopen hterm =>
    exact ⟨hp.inputs, forall_changeOutput (fun o _ ho => drawn_addTerm ho hterm) hp.outputs⟩
  | outputSetting hopen hkept =>
    refine ⟨hp.inputs, forall_changeOutput (fun o _ ho => ?_) hp.outputs⟩
    rw [(hkept o).1]
    exact ho
  | closeOutput hopen hfound hterms hbuilt =>
    obtain ⟨o', before, after, ho', hc, hstate⟩ := exists_built hfound hbuilt
    show Controller.Drawn (Controller.onOutput _ _ _ _).state
    rw [hstate]
    refine ⟨hp.inputs, fun q hq => ?_⟩
    have houtputs := hp.outputs
    rw [hc] at houtputs
    rcases List.mem_append.mp hq with hq | hq
    · exact houtputs q (List.mem_append_left _ hq)
    · rcases List.mem_cons.mp hq with rfl | hq
      · exact OutputVariable.drawn_of_outline (OutputVariable.outline_discretize ho')
          (houtputs _ (List.mem_append_right _ List.mem_cons_self))
      · exact houtputs q (List.mem_append_right _ (List.mem_cons_of_mem _ hq))
  | rule r hadded =>
    obtain ⟨hinputs, houtputs⟩ := Controller.variables_addRule r p.controller
    show Controller.Drawn (Controller.addRule r p.controller).state
    exact ⟨hinputs ▸ hp.inputs, houtputs ▸ hp.outputs⟩

/-- The name of the output does not hold a colon, and the output has a grid if it has been
described, unless its description is still open. -/
def Progress.Settled (p : Progress α) (o : OutputVariable α) : Prop :=
  ':' ∉ o.name.toList ∧ (o.name ∈ p.described →
    p.block = some ⟨.defuzzify, o.name⟩ ∨ (o.terms ≠ [] ∧ o.isDiscretized = true))

omit [Scalar α] in
-- While another block is open or none is, every described output has its grid.
theorem Progress.Settled.of_not_open {o : OutputVariable α} (h : p.Settled o)
    (hblock : p.block ≠ some ⟨.defuzzify, o.name⟩)
    (hdescribed : o.name ∈ p'.described → o.name ∈ p.described) : p'.Settled o :=
  ⟨h.1, fun hmem => .inr ((h.2 (hdescribed hmem)).resolve_left hblock)⟩

theorem Progress.Step.settled (h : p.Step p') (hnames : p.controller.NamesDistinct)
    (hdescribed : ∀ name ∈ p.described, name ∈ p.controller.names)
    (hp : ∀ o ∈ p.controller.outputs, p.Settled o) :
    ∀ o ∈ p'.controller.outputs, p'.Settled o := by
  cases h with
  | set name operators => exact hp
  | enter hopen hblock =>
    exact fun o ho => (hp o ho).of_not_open (by simp [hopen]) id
  | leave hopen hblock =>
    exact fun o ho => (hp o ho).of_not_open (by simp [hopen, hblock]) id
  | @describeInput name hopen hnew hname =>
    intro o ho
    -- the name of an input is not that of an output
    have hne : o.name ≠ name := by
      rintro rfl
      have hmem : o.name ∈ p.controller.outputs.map (·.name) := List.mem_map.mpr ⟨o, ho, rfl⟩
      exact (List.nodup_append.mp hnames).2.2 _ (Controller.isSome_input?.mp hname) _ hmem rfl
    refine (hp o ho).of_not_open (by simp [hopen]) fun hmem => ?_
    exact (List.mem_cons.mp hmem).resolve_left hne
  | @describeOutput name hopen hnew hname =>
    intro o ho
    by_cases hsame : o.name = name
    · exact ⟨(hp o ho).1, fun _ => .inl (by rw [hsame])⟩
    · refine (hp o ho).of_not_open (by simp [hopen]) fun hmem => ?_
      exact (List.mem_cons.mp hmem).resolve_left hsame
  | declareInput hadd =>
    obtain ⟨-, rfl⟩ := Controller.addInput_eq_ok.mp hadd
    exact hp
  | @declareOutput name o c hname hcreate hadd =>
    obtain ⟨hnew, rfl⟩ := Controller.addOutput_eq_ok.mp hadd
    refine List.forall_mem_append.mpr ⟨hp, List.forall_mem_singleton.mpr ⟨?_, fun hmem => ?_⟩⟩
    · rwa [(terms_of_declaredOutput hcreate).1]
    · exact absurd (hdescribed _ hmem) hnew
  | inputTerm hopen hterm => exact hp
  | outputTerm hopen hterm =>
    exact forall_changeOutput (fun o hname ho => ⟨ho.1, fun _ => .inl (hname ▸ hopen)⟩) hp
  | @outputSetting name f hopen hkept =>
    refine forall_changeOutput (fun o hname ho => ?_) hp
    have hsame : (f o).name = o.name := congrArg (·.name) (hkept o).1
    unfold Settled
    rw [hsame]
    exact ⟨ho.1, fun _ => .inl (hname ▸ hopen)⟩
  | @closeOutput name o hopen hfound hterms hbuilt =>
    obtain ⟨o', before, after, ho', hc, hstate⟩ := exists_built hfound hbuilt
    show ∀ q ∈ (Controller.onOutput _ _ _ _).state.outputs, _
    rw [hstate]
    have hname : o.name = name := (Controller.split_of_output? hfound).1
    have hnodup := (List.nodup_append.mp hnames).2.1
    rw [hc, List.map_append, List.map_cons, List.nodup_middle, List.nodup_cons] at hnodup
    -- the other outputs have other names
    have hother (q : OutputVariable α) (hq : q ∈ before ++ after) : p.block ≠
        some ⟨.defuzzify, q.name⟩ := by
      have hne : q.name ≠ o.name := fun hsame =>
        hnodup.1 (by rw [← hsame, ← List.map_append]; exact List.mem_map_of_mem hq)
      simp [hopen, ← hname, hne.symm]
    rw [hc] at hp
    intro q hq
    rcases List.mem_append.mp hq with hq | hq
    · exact (hp q (List.mem_append_left _ hq)).of_not_open
        (hother q (List.mem_append_left _ hq)) id
    · rcases List.mem_cons.mp hq with rfl | hq
      · have houtline := OutputVariable.outline_discretize ho'
        have hsame : q.name = o.name := congrArg (fun x => x.1.1) houtline
        refine ⟨?_, fun _ => .inr (OutputVariable.isDiscretized_of_discretize ho')⟩
        rw [hsame]
        exact (hp o (List.mem_append_right _ List.mem_cons_self)).1
      · exact (hp q (List.mem_append_right _ (List.mem_cons_of_mem _ hq))).of_not_open
          (hother q (List.mem_append_right _ hq)) id
  | rule r hadded =>
    show ∀ o ∈ (Controller.addRule r p.controller).state.outputs, _
    rw [(Controller.variables_addRule r p.controller).2]
    exact hp

-- Only variables that are there are described.
theorem Progress.Step.described (h : p.Step p') : p.described ⊆ p'.described ∧
    ∀ name ∈ p'.described, name ∈ p.described ∨ name ∈ p.controller.names := by
  have hsame (c : Controller α) (block : Option OpenBlock) :
      p.described ⊆ (⟨c, block, p.described⟩ : Progress α).described ∧
        ∀ name ∈ p.described, name ∈ p.described ∨ name ∈ p.controller.names :=
    ⟨List.Subset.refl _, fun _ => .inl⟩
  cases h with
  | describeInput hopen hnew hname =>
    refine ⟨List.subset_cons_self _ _, List.forall_mem_cons.mpr ⟨.inr ?_, fun _ => .inl⟩⟩
    exact List.mem_append_left _ (Controller.isSome_input?.mp hname)
  | describeOutput hopen hnew hname =>
    refine ⟨List.subset_cons_self _ _, List.forall_mem_cons.mpr ⟨.inr ?_, fun _ => .inl⟩⟩
    exact List.mem_append_right _ (Controller.isSome_output?.mp hname)
  | set name operators => exact hsame _ _
  | enter hopen hblock => exact hsame _ _
  | leave hopen hblock => exact hsame _ _
  | declareInput hadd => exact hsame _ _
  | declareOutput hname hcreate hadd => exact hsame _ _
  | inputTerm hopen hterm => exact hsame _ _
  | outputTerm hopen hterm => exact hsame _ _
  | outputSetting hopen hkept => exact hsame _ _
  | closeOutput hopen hfound hterms hbuilt => exact hsame _ _
  | rule r hadded => exact hsame _ _

/-- What has been read so far under a configuration is well formed. -/
structure Progress.Kept (config : Config α) (p : Progress α) : Prop where
  config : p.controller.config = config
  sound : Sound p.controller
  distinct : RulesDistinct p.controller.rules
  drawn : p.controller.Drawn
  described : ∀ name ∈ p.described, name ∈ p.controller.names
  settled : ∀ o ∈ p.controller.outputs, p.Settled o

theorem Progress.Kept.step (hp : p.Kept config) (h : p.Step p') : p'.Kept config where
  config := h.keeps.config.trans hp.config
  sound := hp.sound.of_step h
  distinct := h.keeps.rules hp.distinct
  drawn := h.drawn hp.drawn
  described name hname := h.names_subset ((h.described.2 name hname).elim (hp.described name) id)
  settled := h.settled hp.sound.names hp.described hp.settled

theorem Progress.kept_start (config : Config α) (operators : Operators) :
    (start config operators).Kept config where
  config := rfl
  sound := sound_start config operators
  distinct := List.Pairwise.nil
  drawn := ⟨fun _ h => absurd h List.not_mem_nil, fun _ h => absurd h List.not_mem_nil⟩
  described := fun _ h => absurd h List.not_mem_nil
  settled := fun _ h => absurd h List.not_mem_nil

/-- Reading lines, be it with success or not, keeps what has been read well formed. -/
theorem kept_readLines (lines : List Line) (hp : p.Kept config) :
    (readLines lines p).state.Kept config :=
  Progress.moves_readLines (R := fun p p' => p.Kept config → p'.Kept config) (fun _ => id)
    (fun _ _ _ h h' => h' ∘ h) (fun _ _ hstep hp => hp.step hstep) lines p hp

-- So do lines that may have further ones behind them.
theorem Progress.Kept.of_leads {lines : List Line} (hp : p.Kept config)
    (h : (Action.forEach lines fun line => Action.changeNoting (readLine line)).Leads p p' ()) :
    p'.Kept config := by
  rw [← h.state_eq]
  exact Progress.moves_readEach (R := fun p p' => p.Kept config → p'.Kept config) (fun _ => id)
    (fun _ _ _ h h' => h' ∘ h) (fun _ _ hstep hp => hp.step hstep) lines p hp

end Fcl

end FuzzyInference
