import FuzzyInference.Proofs.LineSteps
import FuzzyInference.Proofs.Outline
import FuzzyInference.Proofs.WellFormed

/-!
# Reading an FCL text is all or nothing

What is read keeps its names distinct and its rules valid, line by line.  Therefore nothing can fail
any more once its names are known to be new to the controller that it is joined to.
-/

namespace FuzzyInference.Fcl

open List (Forall₂)

variable {α : Type}

/-! ## What a line does to the controller that is read -/

/-- The names of a controller are distinct and its rules are valid. -/
structure Sound (c : Controller α) : Prop where
  names : c.NamesDistinct
  rules : ∀ r ∈ c.rules, c.Valid r

/-- The rules stay the same, and every variable keeps its place, its name and its terms, which may
be followed by further ones. -/
structure Grows (c c' : Controller α) : Prop where
  inputs : Forall₂ (fun v v' => v'.name = v.name ∧ v.terms.length ≤ v'.terms.length)
    c.inputs c'.inputs
  outputs : Forall₂ (fun o o' => o'.name = o.name ∧ o.terms.length ≤ o'.terms.length)
    c.outputs c'.outputs
  rules : c'.rules = c.rules

theorem Grows.of_eq {c c' : Controller α} (hinputs : c'.inputs = c.inputs)
    (houtputs : c'.outputs = c.outputs) (hrules : c'.rules = c.rules) : Grows c c' := by
  refine ⟨?_, ?_, hrules⟩
  · rw [hinputs]
    exact Action.forall₂_refl (fun _ => ⟨rfl, Nat.le_refl _⟩) _
  · rw [houtputs]
    exact Action.forall₂_refl (fun _ => ⟨rfl, Nat.le_refl _⟩) _

theorem Grows.covers {c c' : Controller α} (h : Grows c c') : c'.Covers c := by
  constructor
  · intro name v hv
    obtain ⟨v', hv', hR⟩ := Action.find?_of_forall₂ (fun x y hxy => by rw [hxy.1]) h.inputs hv
    exact ⟨v', hv', hR.2⟩
  · intro name o ho
    obtain ⟨o', ho', hR⟩ := Action.find?_of_forall₂ (fun x y hxy => by rw [hxy.1]) h.outputs ho
    exact ⟨o', ho', hR.2⟩

theorem Grows.names_eq {c c' : Controller α} (h : Grows c c') : c'.names = c.names := by
  unfold Controller.names
  rw [Action.map_eq_of_forall₂ (fun _ _ hxy => hxy.1) h.inputs,
    Action.map_eq_of_forall₂ (fun _ _ hxy => hxy.1) h.outputs]

theorem Sound.of_grows {c c' : Controller α} (hc : Sound c) (h : Grows c c') : Sound c' := by
  constructor
  · have hnames := hc.names
    unfold Controller.NamesDistinct at hnames ⊢
    rwa [h.names_eq]
  · intro r hr
    rw [h.rules] at hr
    exact (hc.rules r hr).of_covers h.covers

theorem Sound.addInput {c c' : Controller α} {v : Variable α} (hc : Sound c)
    (h : c.addInput v = .ok c') : Sound c' := by
  refine ⟨hc.names.addInput h, ?_⟩
  obtain ⟨-, hrules⟩ := Controller.addInput_eq_ok.mp h
  intro r hr
  rw [hrules] at hr
  exact (hc.rules r hr).of_covers (Controller.covers_addInput h)

theorem Sound.addOutput {c c' : Controller α} {o : OutputVariable α} (hc : Sound c)
    (h : c.addOutput o = .ok c') : Sound c' := by
  refine ⟨hc.names.addOutput h, ?_⟩
  obtain ⟨-, hrules⟩ := Controller.addOutput_eq_ok.mp h
  intro r hr
  rw [hrules] at hr
  exact (hc.rules r hr).of_covers (Controller.covers_addOutput h)

theorem Sound.addRule [Scalar α] {c : Controller α} (hc : Sound c) (r : Rule α) :
    Sound (Controller.addRule r c).state := by
  unfold Controller.addRule
  cases hr : c.checkRule r with
  | error f => exact hc
  | ok u =>
    dsimp only
    split
    · exact hc
    · have hcovers := c.covers_rules (c.rules ++ [r])
      refine ⟨hc.names, ?_⟩
      intro s hs
      rcases List.mem_append.mp hs with hs | hs
      · exact (hc.rules s hs).of_covers hcovers
      · rw [List.mem_singleton.mp hs]
        exact (Controller.checkRule_eq_ok.mp hr).of_covers hcovers

theorem grows_onInput {β : Type} (name : String) (missing : Fault) {act : Action (Variable α) β}
    (hact : act.Moves fun v v' => v'.name = v.name ∧ v.terms.length ≤ v'.terms.length) :
    (Controller.onInput name missing act).Moves Grows := by
  refine Action.moves_within (Action.moves_onFirst (fun v => ⟨rfl, Nat.le_refl _⟩) hact) ?_
  intro c inputs h
  exact ⟨h, Action.forall₂_refl (fun _ => ⟨rfl, Nat.le_refl _⟩) _, rfl⟩

theorem grows_onOutput {β : Type} (name : String) (missing : Fault)
    {act : Action (OutputVariable α) β}
    (hact : act.Moves fun o o' => o'.name = o.name ∧ o.terms.length ≤ o'.terms.length) :
    (Controller.onOutput name missing act).Moves Grows := by
  refine Action.moves_within (Action.moves_onFirst (fun o => ⟨rfl, Nat.le_refl _⟩) hact) ?_
  intro c outputs h
  exact ⟨Action.forall₂_refl (fun _ => ⟨rfl, Nat.le_refl _⟩) _, h, rfl⟩

-- Building a grid adds no term and takes none away.
theorem grows_buildGrid [Scalar α] (name : String) (missing : Fault) :
    (Controller.onOutput (α := α) name missing OutputVariable.buildGrid).Moves Grows := by
  refine grows_onOutput name missing (OutputVariable.moves_buildGrid (fun o => ⟨rfl, Nat.le_refl _⟩)
    fun o o' ho => ?_)
  have houtline := congrArg Prod.fst (OutputVariable.outline_discretize ho)
  exact ⟨congrArg Prod.fst houtline,
    Nat.le_of_eq (Variable.length_terms_of_outline houtline).symm⟩

theorem length_addTerm (v : Variable α) (t : Term α) :
    v.terms.length ≤ (v.addTerm t).terms.length := by
  simp [Variable.addTerm]

theorem changeInput_grows (c : Controller α) (name : String) {f : Variable α → Variable α}
    (hf : ∀ v, (f v).name = v.name ∧ v.terms.length ≤ (f v).terms.length) :
    Grows c (changeInput c name f) := by
  refine grows_onInput name _ (Action.moves_change (fun v => ⟨rfl, Nat.le_refl _⟩) ?_) c
  rintro v _ ⟨⟩
  exact hf v

theorem changeOutput_grows (c : Controller α) (name : String)
    {f : OutputVariable α → OutputVariable α}
    (hf : ∀ o, (f o).name = o.name ∧ o.terms.length ≤ (f o).terms.length) :
    Grows c (changeOutput c name f) := by
  refine grows_onOutput name _ (Action.moves_change (fun o => ⟨rfl, Nat.le_refl _⟩) ?_) c
  rintro o _ ⟨⟩
  exact hf o

theorem changeInput_append {c : Controller α} {v : Variable α} {before after : List (Variable α)}
    (hc : c.inputs = before ++ v :: after) (hbefore : v.name ∉ before.map (·.name))
    (f : Variable α → Variable α) :
    changeInput c v.name f = { c with inputs := before ++ f v :: after } := by
  unfold changeInput
  rw [Controller.onInput_append hc hbefore]
  rfl

theorem changeOutput_append {c : Controller α} {o : OutputVariable α}
    {before after : List (OutputVariable α)} (hc : c.outputs = before ++ o :: after)
    (hbefore : o.name ∉ before.map (·.name)) (f : OutputVariable α → OutputVariable α) :
    changeOutput c o.name f = { c with outputs := before ++ f o :: after } := by
  unfold changeOutput
  rw [Controller.onOutput_append hc hbefore]
  rfl

/-! ## Additions that cannot fail -/

theorem foldlM_addInput (vs : List (Variable α)) (base : Controller α)
    (hnew : ∀ v ∈ vs, v.name ∉ base.names) (hdistinct : (vs.map (·.name)).Nodup) :
    vs.foldlM (fun c v => c.addInput v) base = .ok { base with inputs := base.inputs ++ vs } := by
  induction vs generalizing base with
  | nil => simp [pure, Except.pure]
  | cons v vs ih =>
    obtain ⟨hv, hvs⟩ := List.nodup_cons.mp hdistinct
    have hadd := Controller.addInput_eq_ok.mpr ⟨hnew v (by simp), rfl⟩
    rw [List.foldlM_cons, hadd]
    -- the names that are still to come remain new
    show List.foldlM _ _ vs = _
    rw [ih _ ?_ hvs]
    · simp
    · intro w hw hmem
      have hwv : w.name ≠ v.name := fun heq => hv (List.mem_map.mpr ⟨w, hw, heq⟩)
      have : w.name ∉ base.names := hnew w (by simp [hw])
      simp [Controller.names, hwv] at hmem this
      tauto

theorem foldlM_addOutput (os : List (OutputVariable α)) (base : Controller α)
    (hnew : ∀ o ∈ os, o.name ∉ base.names) (hdistinct : (os.map (·.name)).Nodup) :
    os.foldlM (fun c o => c.addOutput o) base =
      .ok { base with outputs := base.outputs ++ os } := by
  induction os generalizing base with
  | nil => simp [pure, Except.pure]
  | cons o os ih =>
    obtain ⟨ho, hos⟩ := List.nodup_cons.mp hdistinct
    have hadd := Controller.addOutput_eq_ok.mpr ⟨hnew o (by simp), rfl⟩
    rw [List.foldlM_cons, hadd]
    show List.foldlM _ _ os = _
    rw [ih _ ?_ hos]
    · simp
    · intro w hw hmem
      have hwo : w.name ≠ o.name := fun heq => ho (List.mem_map.mpr ⟨w, hw, heq⟩)
      have : w.name ∉ base.names := hnew w (by simp [hw])
      simp [Controller.names, hwo] at hmem this
      tauto

theorem checkDisjoint_eq_ok {base c : Controller α} :
    checkDisjoint base c = .ok () ↔ ∀ name ∈ c.names, name ∉ base.names := by
  unfold checkDisjoint
  rw [forM_eq_ok]
  simp only [Controller.checkNew_eq_ok]
  rfl

-- Names that are new to the joined controller are found in what is joined to it.
theorem covers_joined {base c : Controller α} (hdisjoint : ∀ name ∈ c.names, name ∉ base.names) :
    ({ base with inputs := base.inputs ++ c.inputs, outputs := base.outputs ++ c.outputs } :
      Controller α).Covers c := by
  constructor
  · intro name v hv
    refine ⟨v, ?_, Nat.le_refl _⟩
    -- what `c` finds under a name, the joined controller finds behind what `base` has
    have hname : v.name = name := by simpa using List.find?_some hv
    have hmem : name ∈ c.names := List.mem_append_left _
      (List.mem_map.mpr ⟨v, List.mem_of_find?_eq_some hv, hname⟩)
    have hbase : name ∉ base.inputs.map (·.name) :=
      fun h => hdisjoint name hmem (List.mem_append_left _ h)
    show (base.inputs ++ c.inputs).find? _ = _
    rw [List.find?_append, find?_of_not_mem_map hbase, Option.none_or]
    exact hv
  · intro name o ho
    refine ⟨o, ?_, Nat.le_refl _⟩
    have hname : o.name = name := by simpa using List.find?_some ho
    have hmem : name ∈ c.names := List.mem_append_right _
      (List.mem_map.mpr ⟨o, List.mem_of_find?_eq_some ho, hname⟩)
    have hbase : name ∉ base.outputs.map (·.name) :=
      fun h => hdisjoint name hmem (List.mem_append_right _ h)
    show (base.outputs ++ c.outputs).find? _ = _
    rw [List.find?_append, find?_of_not_mem_map hbase, Option.none_or]
    exact ho

theorem sound_start (config : Config α) (operators : Operators) :
    Sound (Progress.start config operators).controller :=
  ⟨List.nodup_nil, fun _ hr => absurd hr List.not_mem_nil⟩

variable [Scalar α]

/-! ## What is read stays sound -/

variable {p p' : Progress α}

/-- A line lets what has been read grow, adds a variable, or adds a rule. -/
theorem Progress.Step.controller (h : p.Step p') :
    (Grows p.controller p'.controller ∧ p'.controller.config = p.controller.config) ∨
      (∃ v, p.controller.addInput v = .ok p'.controller) ∨
      (∃ o, p.controller.addOutput o = .ok p'.controller) ∨
      ∃ r, p'.controller = (Controller.addRule r p.controller).state := by
  cases h with
  | set name operators => exact .inl ⟨.of_eq rfl rfl rfl, rfl⟩
  | enter hopen hblock => exact .inl ⟨.of_eq rfl rfl rfl, rfl⟩
  | leave hopen hblock => exact .inl ⟨.of_eq rfl rfl rfl, rfl⟩
  | describeInput hopen hnew hname => exact .inl ⟨.of_eq rfl rfl rfl, rfl⟩
  | describeOutput hopen hnew hname => exact .inl ⟨.of_eq rfl rfl rfl, rfl⟩
  | declareInput hadd => exact .inr (.inl ⟨_, hadd⟩)
  | declareOutput hname hcreate hadd => exact .inr (.inr (.inl ⟨_, hadd⟩))
  | @inputTerm name t hopen hterm =>
    exact .inl ⟨changeInput_grows _ _ fun v => ⟨rfl, length_addTerm v t⟩, rfl⟩
  | @outputTerm name t hopen hterm =>
    exact .inl ⟨changeOutput_grows _ _ fun o => ⟨rfl, length_addTerm o.toVariable t⟩, rfl⟩
  | @outputSetting name f hopen hkept =>
    refine .inl ⟨changeOutput_grows _ _ fun o => ?_, rfl⟩
    rw [(hkept o).1]
    exact ⟨rfl, Nat.le_refl _⟩
  | @closeOutput name o hopen hfound hterms hbuilt =>
    exact .inl ⟨grows_buildGrid name _ p.controller, rfl⟩
  | rule r hadded => exact .inr (.inr (.inr ⟨r, rfl⟩))

-- One line keeps the names distinct and the rules valid.
theorem Sound.of_step (hp : Sound p.controller) (h : p.Step p') : Sound p'.controller := by
  rcases h.controller with ⟨hgrows, -⟩ | ⟨v, hadd⟩ | ⟨o, hadd⟩ | ⟨r, hrule⟩
  · exact hp.of_grows hgrows
  · exact hp.addInput hadd
  · exact hp.addOutput hadd
  · rw [hrule]
    exact hp.addRule r

theorem readLines_sound (lines : List Line) {p : Progress α} (hp : Sound p.controller) :
    Sound (readLines lines p).state.controller :=
  Progress.moves_readLines (R := fun p p' => Sound p.controller → Sound p'.controller)
    (fun _ => id) (fun _ _ _ h h' => h' ∘ h) (fun _ _ hstep hp => hp.of_step hstep) lines p hp

/-! ## Joining -/

/-- Rules with a further one, unless an equivalent one is there. -/
def withRule (rules : List (Rule α)) (r : Rule α) : List (Rule α) :=
  if rules.any (·.equivalent r) then rules else rules ++ [r]

theorem addRule_of_valid {base : Controller α} {r : Rule α} (h : base.Valid r) :
    ∃ notices, Controller.addRule r base =
      ⟨{ base with rules := withRule base.rules r }, notices, .ok ()⟩ := by
  unfold Controller.addRule withRule
  rw [Controller.checkRule_eq_ok.mpr h]
  dsimp only
  split
  · exact ⟨_, rfl⟩
  · exact ⟨_, rfl⟩

theorem forEach_addRule (rules : List (Rule α)) (base : Controller α)
    (hvalid : ∀ r ∈ rules, base.Valid r) :
    ∃ notices, Action.forEach rules Controller.addRule base =
      ⟨{ base with rules := rules.foldl withRule base.rules }, notices, .ok ()⟩ := by
  induction rules generalizing base with
  | nil => exact ⟨[], rfl⟩
  | cons r rules ih =>
    obtain ⟨notices, hfirst⟩ := addRule_of_valid (hvalid r (by simp))
    have hcovers := base.covers_rules (withRule base.rules r)
    obtain ⟨more, hrest⟩ := ih { base with rules := withRule base.rules r }
      fun s hs => (hvalid s (by simp [hs])).of_covers hcovers
    refine ⟨notices ++ more, ?_⟩
    rw [Action.forEach, Action.andThen_of_ok hfirst, hrest]
    rfl

/-- A controller with everything that another one has, whose operators it takes over, and whose
name unless that is empty. -/
def merged (base c : Controller α) : Controller α where
  config := base.config
  name := if c.name = "" then base.name else c.name
  inputs := base.inputs ++ c.inputs
  outputs := base.outputs ++ c.outputs
  rules := c.rules.foldl withRule base.rules
  operators := c.operators

-- Joining a sound controller whose names are all new.
theorem join_of_disjoint {base c : Controller α} (hc : Sound c)
    (hdisjoint : ∀ name ∈ c.names, name ∉ base.names) :
    ∃ notices, join c base = ⟨merged base c, notices, .ok ()⟩ := by
  have hnames := List.nodup_append.mp hc.names
  -- the inputs come first, so outputs have to be new beside them too
  have hinputs := foldlM_addInput c.inputs base
    (fun v hv => hdisjoint _ (List.mem_append_left _ (List.mem_map.mpr ⟨v, hv, rfl⟩))) hnames.1
  have houtputs := foldlM_addOutput c.outputs { base with inputs := base.inputs ++ c.inputs } (by
      intro o ho hmem
      have hin : o.name ∈ c.outputs.map (·.name) := List.mem_map.mpr ⟨o, ho, rfl⟩
      have hbase : o.name ∉ base.names := hdisjoint _ (List.mem_append_right _ hin)
      have hc : o.name ∉ c.inputs.map (·.name) := fun h => hnames.2.2 _ h _ hin rfl
      simp only [Controller.names, List.map_append, List.mem_append] at hmem hbase
      tauto) hnames.2.1
  obtain ⟨notices, hrules⟩ := forEach_addRule c.rules
    { base with inputs := base.inputs ++ c.inputs, outputs := base.outputs ++ c.outputs }
    fun r hr => (hc.rules r hr).of_covers (covers_joined hdisjoint)
  refine ⟨notices, ?_⟩
  unfold join
  rw [Action.bind_eq, Action.andThen_of_ok (Action.forEach_change_of_ok hinputs), Action.bind_eq,
    Action.andThen_of_ok (Action.forEach_change_of_ok houtputs), Action.bind_eq,
    Action.andThen_of_ok hrules]
  simp [Action.change, merged]

/-- What the lines of a text say when they are read under the settings of a controller. -/
def readFor (base : Controller α) (text : List Char) : Outcome (Progress α) Unit :=
  readLines (linesOf text) (Progress.start base.config base.operators)

theorem readFor_sound (base : Controller α) (text : List Char) :
    Sound (readFor base text).state.controller :=
  readLines_sound (linesOf text) (sound_start base.config base.operators)

/-- A text that is read and whose names are new is joined as a whole. -/
theorem readFcl_of_disjoint {base : Controller α} {text : List Char}
    (hread : (readFor base text).answer = .ok ())
    (hdisjoint : ∀ name ∈ (readFor base text).state.controller.names, name ∉ base.names) :
    ∃ notices, base.readFcl text =
      ⟨merged base (readFor base text).state.controller, notices, .ok ()⟩ := by
  obtain ⟨notices, hjoin⟩ := join_of_disjoint (readFor_sound base text) hdisjoint
  have hcheck := checkDisjoint_eq_ok.mpr hdisjoint
  unfold readFor at hread hcheck hjoin ⊢
  unfold Controller.readFcl
  dsimp only
  rw [hread]
  dsimp only
  rw [hcheck]
  dsimp only
  rw [hjoin]
  exact ⟨_, rfl⟩

-- Any other text leaves the controller as it was.
theorem readFcl_of_not_disjoint {base : Controller α} {text : List Char}
    (h : ¬ ((readFor base text).answer = .ok () ∧
      ∀ name ∈ (readFor base text).state.controller.names, name ∉ base.names)) :
    ∃ notices fault, base.readFcl text = ⟨base, notices, .error fault⟩ := by
  rw [← checkDisjoint_eq_ok] at h
  unfold readFor at h
  unfold Controller.readFcl
  dsimp only
  split
  · exact ⟨_, _, rfl⟩
  · rename_i hread
    split
    · exact ⟨_, _, rfl⟩
    · rename_i hcheck
      exact absurd ⟨hread, hcheck⟩ h

/-- Reading a text into a controller either makes the whole change or none.  A fault leaves the
controller as it was, and once the lines are read and their names are new, no addition of a
variable or a rule can fail. -/
theorem readFcl_all_or_nothing (text : List Char) (base : Controller α) :
    (∀ fault, (base.readFcl text).answer = .error fault → (base.readFcl text).state = base) ∧
      ((readFor base text).answer = .ok () →
        checkDisjoint base (readFor base text).state.controller = .ok () →
        (join (readFor base text).state.controller base).answer = .ok () ∧
          (base.readFcl text).answer = .ok ()) := by
  constructor
  · intro fault hfault
    -- a text that is read with new names gives no fault; any other leaves `base` alone
    by_cases h : (readFor base text).answer = .ok () ∧
        ∀ name ∈ (readFor base text).state.controller.names, name ∉ base.names
    · obtain ⟨notices, hread⟩ := readFcl_of_disjoint h.1 h.2
      rw [hread] at hfault
      cases hfault
    · obtain ⟨notices, fault', hread⟩ := readFcl_of_not_disjoint h
      rw [hread]
  · intro hread hcheck
    have hdisjoint := checkDisjoint_eq_ok.mp hcheck
    obtain ⟨notices, hjoin⟩ := join_of_disjoint (readFor_sound base text) hdisjoint
    obtain ⟨notices', hall⟩ := readFcl_of_disjoint hread hdisjoint
    rw [hjoin, hall]
    exact ⟨rfl, rfl⟩

end FuzzyInference.Fcl
