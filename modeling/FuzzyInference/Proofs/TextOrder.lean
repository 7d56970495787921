import FuzzyInference.Proofs.ConditionGrammar
import FuzzyInference.Proofs.ReadSoFar

/-!
# What the lines of a text add

The block that a line is in depends on the keywords of the lines before it.  The variables of a text
are those that its declarations name, and its rules are those of its rule lines, read with all of
its variables, each in the order of the lines.
-/

namespace FuzzyInference

variable {α : Type}

/-! ## Variables that are found later, too -/

theorem Variable.termIndex?_of_prefix {v v' : Variable α} {term : String} {i : Nat}
    (h : v.termNames <+: v'.termNames) (hi : v.termIndex? term = some i) :
    v'.termIndex? term = some i := by
  have hnames (w : Variable α) : w.termIndex? term = w.termNames.findIdx? (· == term) := by
    unfold termIndex? termNames
    rw [List.findIdx?_map]
    rfl
  rw [hnames] at hi ⊢
  obtain ⟨more, hmore⟩ := h
  rw [← hmore, List.findIdx?_append, hi]
  rfl

namespace Fcl

/-- What the first controller finds by its names, the second one finds, too, with the same terms at
the front. -/
structure Resolves (c c' : Controller α) : Prop where
  inputs : ∀ {name v}, c.input? name = some v →
    ∃ v', c'.input? name = some v' ∧ v.termNames <+: v'.termNames
  outputs : ∀ {name o}, c.output? name = some o →
    ∃ o', c'.output? name = some o' ∧ o.termNames <+: o'.termNames

theorem Resolves.of_eq {c c' : Controller α} (hinputs : c'.inputs = c.inputs)
    (houtputs : c'.outputs = c.outputs) : Resolves c c' := by
  constructor
  · intro name v hv
    exact ⟨v, by rwa [Controller.input?, hinputs], List.prefix_rfl⟩
  · intro name o ho
    exact ⟨o, by rwa [Controller.output?, houtputs], List.prefix_rfl⟩

theorem Resolves.trans {c d e : Controller α} (h : Resolves c d) (h' : Resolves d e) :
    Resolves c e := by
  constructor
  · intro name v hv
    obtain ⟨w, hw, hprefix⟩ := h.inputs hv
    obtain ⟨u, hu, hprefix'⟩ := h'.inputs hw
    exact ⟨u, hu, hprefix.trans hprefix'⟩
  · intro name o ho
    obtain ⟨w, hw, hprefix⟩ := h.outputs ho
    obtain ⟨u, hu, hprefix'⟩ := h'.outputs hw
    exact ⟨u, hu, hprefix.trans hprefix'⟩

/-- The variable keeps its name, and its terms may be followed by further ones. -/
def Lengthens (v v' : Variable α) : Prop := v'.name = v.name ∧ v.termNames <+: v'.termNames

theorem Lengthens.refl (v : Variable α) : Lengthens v v := ⟨rfl, List.prefix_rfl⟩

theorem lengthens_addTerm (v : Variable α) (t : Term α) : Lengthens v (v.addTerm t) := by
  refine ⟨rfl, ⟨[t.name], ?_⟩⟩
  unfold Variable.termNames Variable.addTerm
  rw [List.map_append]
  rfl

theorem Resolves.of_forall₂ {c c' : Controller α}
    (hinputs : List.Forall₂ Lengthens c.inputs c'.inputs)
    (houtputs : List.Forall₂ (fun o o' => Lengthens o.toVariable o'.toVariable)
      c.outputs c'.outputs) : Resolves c c' := by
  constructor
  · intro name v hv
    obtain ⟨v', hv', hR⟩ := Action.find?_of_forall₂ (fun x y hxy => by rw [hxy.1]) hinputs hv
    exact ⟨v', hv', hR.2⟩
  · intro name o ho
    obtain ⟨o', ho', hR⟩ := Action.find?_of_forall₂ (fun x y hxy => by rw [hxy.1]) houtputs ho
    exact ⟨o', ho', hR.2⟩

theorem resolves_onInput {β : Type} (name : String) (missing : Fault)
    {act : Action (Variable α) β} (hact : act.Moves Lengthens) :
    (Controller.onInput name missing act).Moves Resolves := by
  refine Action.moves_within (Action.moves_onFirst Lengthens.refl hact) fun c inputs h => ?_
  exact .of_forall₂ h (Action.forall₂_refl (fun o => Lengthens.refl o.toVariable) _)

theorem resolves_onOutput {β : Type} (name : String) (missing : Fault)
    {act : Action (OutputVariable α) β}
    (hact : act.Moves fun o o' => Lengthens o.toVariable o'.toVariable) :
    (Controller.onOutput name missing act).Moves Resolves := by
  refine Action.moves_within (Action.moves_onFirst (fun o => Lengthens.refl o.toVariable) hact)
    fun c outputs h => ?_
  exact .of_forall₂ (Action.forall₂_refl Lengthens.refl _) h

theorem resolves_changeInput (c : Controller α) (name : String) {f : Variable α → Variable α}
    (hf : ∀ v, Lengthens v (f v)) : Resolves c (changeInput c name f) := by
  refine resolves_onInput name _ (Action.moves_change Lengthens.refl ?_) c
  rintro v _ ⟨⟩
  exact hf v

theorem resolves_changeOutput (c : Controller α) (name : String)
    {f : OutputVariable α → OutputVariable α}
    (hf : ∀ o, Lengthens o.toVariable (f o).toVariable) : Resolves c (changeOutput c name f) := by
  refine resolves_onOutput name _ (Action.moves_change (fun o => Lengthens.refl o.toVariable) ?_) c
  rintro o _ ⟨⟩
  exact hf o

variable [Scalar α] {p p' : Progress α}

/-- What is found by its name before a line is found behind it. -/
theorem Progress.Step.resolves (h : p.Step p') : Resolves p.controller p'.controller := by
  cases h with
  | set name operators => exact .of_eq rfl rfl
  | enter hopen hblock => exact .of_eq rfl rfl
  | leave hopen hblock => exact .of_eq rfl rfl
  | describeInput hopen hnew hname => exact .of_eq rfl rfl
  | describeOutput hopen hnew hname => exact .of_eq rfl rfl
  | declareInput hadd =>
    obtain ⟨-, rfl⟩ := Controller.addInput_eq_ok.mp hadd
    refine ⟨fun {name v} hv => ⟨v, ?_, List.prefix_rfl⟩, (Resolves.of_eq rfl rfl).outputs⟩
    exact List.find?_append.trans (by rw [show p.controller.inputs.find? _ = _ from hv]; rfl)
  | declareOutput hname hcreate hadd =>
    obtain ⟨-, rfl⟩ := Controller.addOutput_eq_ok.mp hadd
    refine ⟨(Resolves.of_eq rfl rfl).inputs, fun {name o} ho => ⟨o, ?_, List.prefix_rfl⟩⟩
    exact List.find?_append.trans (by rw [show p.controller.outputs.find? _ = _ from ho]; rfl)
  | @inputTerm name t hopen hterm =>
    exact resolves_changeInput p.controller name (lengthens_addTerm · t)
  | @outputTerm name t hopen hterm =>
    exact resolves_changeOutput p.controller name fun o => lengthens_addTerm o.toVariable t
  | @outputSetting name f hopen hkept =>
    refine resolves_changeOutput p.controller name fun o => ?_
    rw [(hkept o).1]
    exact Lengthens.refl o.toVariable
  | @closeOutput name o hopen hfound hterms hbuilt =>
    refine resolves_onOutput name _ (OutputVariable.moves_buildGrid
      (fun o => Lengthens.refl o.toVariable) fun o o' ho => ?_) p.controller
    have houtline : o'.toVariable.outline = o.toVariable.outline :=
      congrArg Prod.fst (OutputVariable.outline_discretize ho)
    exact ⟨congrArg Prod.fst houtline,
      Variable.termNames_of_outline houtline ▸ List.prefix_rfl⟩
  | rule r hadded =>
    obtain ⟨hinputs, houtputs⟩ := Controller.variables_addRule r p.controller
    exact .of_eq hinputs houtputs

/-! ## Rules that are read later, too -/

omit [Scalar α] in
theorem Derives.of_resolves {c c' : Controller α} (h : Resolves c c') {rank : Rank}
    {tokens : List Token} {condition : Condition} (hd : Derives c.inputs rank tokens condition) :
    Derives c'.inputs rank tokens condition := by
  induction hd with
  | comparison hname hterm hv hi =>
    obtain ⟨v', hv', hprefix⟩ := h.inputs hv
    exact .comparison hname hterm hv' (Variable.termIndex?_of_prefix hprefix hi)
  | brackets _ ih => exact .brackets ih
  | oneFactor _ ih => exact .oneFactor ih
  | and _ _ ihl ihr => exact .and ihl ihr
  | oneConjunction _ ih => exact .oneConjunction ih
  | or _ _ ihl ihr => exact .or ihl ihr

theorem readConclusion_of_resolves {c c' : Controller α} (h : Resolves c c') {cs : List Char}
    {conclusion : Conclusion α} (hread : readConclusion c cs = .ok conclusion) :
    readConclusion c' cs = .ok conclusion := by
  unfold readConclusion at hread ⊢
  split at hread
  · cases hread
  · rename_i hparts
    dsimp only at hread ⊢
    split at hread
    · cases hread
    · rename_i o ho
      split at hread
      · cases hread
      · rename_i i hi
        obtain ⟨o', ho', hprefix⟩ := h.outputs ho
        rw [ho']
        dsimp only
        rw [Variable.termIndex?_of_prefix hprefix hi]
        exact hread

theorem readRule_of_resolves {c c' : Controller α} (h : Resolves c c') {statement : List Char}
    {r : Rule α} (hread : readRule c statement = .ok r) : readRule c' statement = .ok r := by
  unfold readRule at hread ⊢
  split at hread
  · cases hread
  · obtain ⟨condition, hcondition, hrest⟩ := bind_eq_ok.mp hread
    obtain ⟨conclusion, hconclusion, hr⟩ := bind_eq_ok.mp hrest
    have hderives := readCondition_eq_ok_iff_derives.mp hcondition
    have hcondition' := readCondition_eq_ok_iff_derives.mpr (hderives.of_resolves h)
    exact bind_eq_ok.mpr ⟨condition, hcondition',
      bind_eq_ok.mpr ⟨conclusion, readConclusion_of_resolves h hconclusion, hr⟩⟩

/-! ## Blocks -/

/-- The word that closes a block. -/
def Block.closing : Block → String
  | .inputs => "END_VAR"
  | .outputs => "END_VAR"
  | .fuzzify => "END_FUZZIFY"
  | .defuzzify => "END_DEFUZZIFY"
  | .rules => "END_RULEBLOCK"

/-- The block that is open behind a line with the keyword. -/
def blockAfter (opened : Option Block) (keyword : String) : Option Block :=
  match opened with
  | none => [Block.inputs, .outputs, .fuzzify, .defuzzify, .rules].find? (·.keyword == keyword)
  | some block => if keyword = block.closing then none else some block

/-- The lines, each with the block that is open in front of it. -/
def placed (opened : Option Block) : List Line → List (Option Block × Line)
  | [] => []
  | line :: rest => (opened, line) :: placed (blockAfter opened line.keyword) rest

def Progress.openBlock (p : Progress α) : Option Block := p.block.map (·.block)

/-- The name that a line declares in a block of declarations. -/
def Line.declared? (line : Line) : Option String :=
  if line.keyword = "END_VAR" then none else (line.statement >>= declaredName).toOption

/-- The name that a line declares if the block is open in front of it. -/
def declarationIn (block : Block) (place : Option Block × Line) : Option String :=
  if place.1 = some block then place.2.declared? else none

/-- The rule that a line gives, if it stands among the rules, with the variables of a controller. -/
def ruleIn (c : Controller α) (place : Option Block × Line) : Option (Rule α) :=
  if place.1 = some .rules ∧ place.2.keyword = "RULE" then
    (place.2.statement >>= readRule c).toOption
  else none

/-- Whether a line selects operators. -/
def IsSetting (place : Option Block × Line) : Prop :=
  place.1 = some .rules ∧ place.2.keyword ∈ ["AND", "OR", "ACT", "ACCU"]

instance (place : Option Block × Line) : Decidable (IsSetting place) :=
  inferInstanceAs (Decidable (_ ∧ _))

/-! ## What one line adds -/

/-- What a line, in the block that is open in front of it, adds to what has been read. -/
structure Adds (line : Line) (p p' : Progress α) : Prop where
  block : p'.openBlock = blockAfter p.openBlock line.keyword
  inputs : p'.controller.inputs.map (·.name) =
    p.controller.inputs.map (·.name) ++ (declarationIn .inputs (p.openBlock, line)).toList
  outputs : p'.controller.outputs.map (·.name) =
    p.controller.outputs.map (·.name) ++ (declarationIn .outputs (p.openBlock, line)).toList
  rules : ∀ {c}, Resolves p.controller c → p'.controller.rules =
    (ruleIn c (p.openBlock, line)).toList.foldl withRule p.controller.rules
  operators : ¬IsSetting (p.openBlock, line) → p'.controller.operators = p.controller.operators

variable {line : Line} {notices : List Notice}

theorem keyword_of_isEmpty (h : line.content.isEmpty = true) : line.keyword = "" := by
  unfold Line.keyword
  rw [List.isEmpty_iff.mp h]
  rfl

omit [Scalar α] in
theorem openBlock_of_block {block : Block} {subject : String}
    (h : p.block = some ⟨block, subject⟩) : p.openBlock = some block := by
  unfold Progress.openBlock
  rw [h]
  rfl

theorem blockAfter_blank (opened : Option Block) : blockAfter opened "" = opened := by
  cases opened with
  | none => decide
  | some block => exact if_neg (by cases block <;> decide)

/-- A line that declares no variable and gives no rule. -/
structure Silent (opened : Option Block) (line : Line) : Prop where
  inputs : declarationIn .inputs (opened, line) = none
  outputs : declarationIn .outputs (opened, line) = none
  rules : ¬(opened = some .rules ∧ line.keyword = "RULE")

theorem silent_of_block {block : Block} (h : block = .fuzzify ∨ block = .defuzzify) :
    Silent (some block) line := by
  rcases h with rfl | rfl
  · exact ⟨rfl, rfl, fun h => by cases h.1⟩
  · exact ⟨rfl, rfl, fun h => by cases h.1⟩

theorem silent_of_rules (h : line.keyword ≠ "RULE") : Silent (some .rules) line :=
  ⟨rfl, rfl, fun hrule => h hrule.2⟩

theorem silent_of_end {block : Block} (hblock : block = .inputs ∨ block = .outputs)
    (h : line.keyword = "END_VAR") : Silent (some block) line := by
  have hnone : line.declared? = none := if_pos h
  rcases hblock with rfl | rfl
  · exact ⟨hnone, rfl, fun hrule => by cases hrule.1⟩
  · exact ⟨rfl, hnone, fun hrule => by cases hrule.1⟩

-- A line without content has no statement, so it declares nothing.
theorem silent_of_isEmpty (h : line.content.isEmpty = true) (opened : Option Block) :
    Silent opened line := by
  have hstatement : line.statement = .error .missingSemicolon := by
    unfold Line.statement
    rw [List.isEmpty_iff.mp h]
    rfl
  have hnone : line.declared? = none := by
    unfold Line.declared?
    rw [keyword_of_isEmpty h, if_neg (by decide), hstatement]
    rfl
  refine ⟨?_, ?_, fun hrule => absurd (hrule.2.symm.trans (keyword_of_isEmpty h)) (by decide)⟩
  · unfold declarationIn
    rw [hnone]
    exact ite_self none
  · unfold declarationIn
    rw [hnone]
    exact ite_self none

theorem Adds.of_silent (hblock : p'.openBlock = blockAfter p.openBlock line.keyword)
    (hgrows : Grows p.controller p'.controller) (hsilent : Silent p.openBlock line)
    (hoperators : ¬IsSetting (p.openBlock, line) →
      p'.controller.operators = p.controller.operators) : Adds line p p' where
  block := hblock
  inputs := by
    rw [hsilent.inputs, Action.map_eq_of_forall₂ (fun _ _ h => h.1) hgrows.inputs]
    exact (List.append_nil _).symm
  outputs := by
    rw [hsilent.outputs, Action.map_eq_of_forall₂ (fun _ _ h => h.1) hgrows.outputs]
    exact (List.append_nil _).symm
  rules _ := by
    unfold ruleIn
    rw [if_neg hsilent.rules]
    exact hgrows.rules
  operators := hoperators

theorem Adds.of_quiet {q : Progress α} (h : quiet q = .ok (p', notices))
    (hblock : q.openBlock = blockAfter p.openBlock line.keyword)
    (hgrows : Grows p.controller q.controller) (hsilent : Silent p.openBlock line)
    (hoperators : ¬IsSetting (p.openBlock, line) →
      q.controller.operators = p.controller.operators) : Adds line p p' := by
  obtain ⟨rfl, -⟩ := quiet_eq_ok.mp h
  exact .of_silent hblock hgrows hsilent hoperators

theorem adds_of_openDescription {block : Block} (hopen : p.openBlock = none)
    (hblock : block = .fuzzify ∨ block = .defuzzify) (hkeyword : line.keyword = block.keyword)
    (h : openDescription line block p = .ok (p', notices)) : Adds line p p' := by
  have hafter : some block = blockAfter p.openBlock line.keyword := by
    rw [hopen, hkeyword]
    rcases hblock with rfl | rfl
    · rfl
    · rfl
  have hsilent : Silent p.openBlock line := by
    rw [hopen]
    exact ⟨rfl, rfl, fun hrule => by cases hrule.1⟩
  unfold openDescription at h
  dsimp only at h
  split at h
  · cases h
  · rcases hblock with rfl | rfl
    · dsimp only at h
      split at h
      · exact .of_quiet h hafter (.of_eq rfl rfl rfl) hsilent fun _ => rfl
      · cases h
    · dsimp only at h
      split at h
      · exact .of_quiet h hafter (.of_eq rfl rfl rfl) hsilent fun _ => rfl
      · cases h

theorem adds_of_readOutside (hopen : p.openBlock = none)
    (h : readOutside line p = .ok (p', notices)) : Adds line p p' := by
  have hsilent : Silent p.openBlock line := by
    rw [hopen]
    exact ⟨rfl, rfl, fun hrule => by cases hrule.1⟩
  have hafter {block : Option Block} {keyword : String} (hkeyword : line.keyword = keyword)
      (hblock : block = blockAfter none keyword) : block = blockAfter p.openBlock line.keyword := by
    rw [hopen, hkeyword, hblock]
  unfold readOutside at h
  dsimp only at h
  split_ifs at h with hkeyword hkeyword hkeyword hkeyword hkeyword hkeyword hkeyword
  · exact .of_quiet h (hafter hkeyword hopen) (.of_eq rfl rfl rfl) hsilent fun _ => rfl
  · exact .of_quiet h (hafter hkeyword hopen) (.of_eq rfl rfl rfl) hsilent fun _ => rfl
  · exact .of_quiet h (hafter hkeyword rfl) (.of_eq rfl rfl rfl) hsilent fun _ => rfl
  · exact .of_quiet h (hafter hkeyword rfl) (.of_eq rfl rfl rfl) hsilent fun _ => rfl
  · exact .of_quiet h (hafter hkeyword rfl) (.of_eq rfl rfl rfl) hsilent fun _ => rfl
  · exact adds_of_openDescription hopen (.inl rfl) hkeyword h
  · exact adds_of_openDescription hopen (.inr rfl) hkeyword h

omit [Scalar α] in
theorem blockAfter_of_closing {block : Block} (hopen : p.openBlock = some block)
    (h : line.keyword = block.closing) :
    p.closed.openBlock = blockAfter p.openBlock line.keyword := by
  rw [hopen]
  exact (if_pos h).symm

omit [Scalar α] in
theorem blockAfter_of_ne {block : Block} (hopen : p.openBlock = some block)
    (h : line.keyword ≠ block.closing) : p.openBlock = blockAfter p.openBlock line.keyword := by
  rw [hopen]
  exact (if_neg h).symm

theorem adds_of_readDeclaration {block : Block} (hopen : p.openBlock = some block)
    (hblock : block = .inputs ∨ block = .outputs)
    (h : readDeclaration line block p = .ok (p', notices)) : Adds line p p' := by
  have hclosing : block.closing = "END_VAR" := by
    rcases hblock with rfl | rfl
    · rfl
    · rfl
  unfold readDeclaration at h
  split at h
  · rename_i hend
    exact .of_quiet h (blockAfter_of_closing hopen (hend.trans hclosing.symm))
      (.of_eq rfl rfl rfl) (hopen ▸ silent_of_end hblock hend) fun _ => rfl
  · rename_i hend
    obtain ⟨name, hname, h⟩ := bind_eq_ok.mp h
    obtain ⟨c, hadd, h⟩ := bind_eq_ok.mp h
    obtain ⟨rfl, -⟩ := quiet_eq_ok.mp h
    rw [blame_eq_ok] at hadd
    have hdeclared : line.declared? = some name := by
      unfold Line.declared?
      rw [if_neg hend, judge_eq_ok.mp hname]
      rfl
    have hstays : p.openBlock = blockAfter p.openBlock line.keyword :=
      blockAfter_of_ne hopen fun h => hend (h.trans hclosing)
    rcases hblock with rfl | rfl
    · obtain ⟨-, rfl⟩ := Controller.addInput_eq_ok.mp hadd
      refine ⟨hstays, ?_, ?_, fun _ => ?_, fun _ => rfl⟩
      · rw [hopen, declarationIn, if_pos rfl, hdeclared]
        exact List.map_append
      · rw [hopen]
        exact (List.append_nil _).symm
      · rw [hopen]
        rfl
    · obtain ⟨o, hcreate, hadd⟩ := bind_eq_ok.mp hadd
      obtain ⟨-, rfl⟩ := Controller.addOutput_eq_ok.mp hadd
      refine ⟨hstays, ?_, ?_, fun _ => ?_, fun _ => rfl⟩
      · rw [hopen]
        exact (List.append_nil _).symm
      · rw [hopen, declarationIn, if_pos rfl, hdeclared, ← (terms_of_declaredOutput hcreate).1]
        exact List.map_append
      · rw [hopen]
        rfl

theorem adds_of_readFuzzify {name : String} (hopen : p.openBlock = some .fuzzify)
    (h : readFuzzify line name p = .ok (p', notices)) : Adds line p p' := by
  have hsilent : Silent p.openBlock line := hopen ▸ silent_of_block (.inl rfl)
  unfold readFuzzify at h
  dsimp only at h
  split_ifs at h with hend hterm
  · exact .of_quiet h (blockAfter_of_closing hopen hend) (.of_eq rfl rfl rfl) hsilent fun _ => rfl
  · obtain ⟨t, -, h⟩ := bind_eq_ok.mp h
    exact .of_quiet h (blockAfter_of_ne hopen hend)
      (changeInput_grows _ _ fun v => ⟨rfl, length_addTerm v t⟩) hsilent fun _ => rfl

theorem adds_of_readDefuzzify {name : String} (hopen : p.openBlock = some .defuzzify)
    (h : readDefuzzify line name p = .ok (p', notices)) : Adds line p p' := by
  have hsilent : Silent p.openBlock line := hopen ▸ silent_of_block (.inr rfl)
  unfold readDefuzzify at h
  dsimp only at h
  split_ifs at h with hend hterm hmethod hdefault
  · unfold closeDefuzzify at h
    dsimp only at h
    split at h
    · cases h
    · obtain ⟨_, -, heq⟩ := map_eq_ok.mp h
      obtain ⟨rfl, -⟩ := Prod.mk.inj heq
      exact .of_silent (blockAfter_of_closing hopen hend) (grows_buildGrid name _ p.controller)
        hsilent fun _ => rfl
  · obtain ⟨t, -, h⟩ := bind_eq_ok.mp h
    exact .of_quiet h (blockAfter_of_ne hopen hend)
      (changeOutput_grows _ _ fun o => ⟨rfl, length_addTerm o.toVariable t⟩) hsilent fun _ => rfl
  · obtain ⟨method, -, h⟩ := bind_eq_ok.mp h
    exact .of_quiet h (blockAfter_of_ne hopen hend)
      (changeOutput_grows _ _ fun o => ⟨rfl, Nat.le_refl _⟩) hsilent fun _ => rfl
  · obtain ⟨defaultValue, -, h⟩ := bind_eq_ok.mp h
    exact .of_quiet h (blockAfter_of_ne hopen hend)
      (changeOutput_grows _ _ fun o => ⟨rfl, Nat.le_refl _⟩) hsilent fun _ => rfl

-- The rules of a controller after a further one has been accepted.
theorem rules_of_addRule {c : Controller α} {r : Rule α}
    (h : (Controller.addRule r c).answer = .ok ()) :
    (Controller.addRule r c).state.rules = withRule c.rules r ∧
      (Controller.addRule r c).state.operators = c.operators := by
  unfold Controller.addRule at h ⊢
  split at h
  · cases h
  · unfold withRule
    split
    · exact ⟨rfl, rfl⟩
    · exact ⟨rfl, rfl⟩

theorem adds_of_readRuleLine (hopen : p.openBlock = some .rules)
    (h : readRuleLine line p = .ok (p', notices)) : Adds line p p' := by
  -- a setting is none of the words that end the block or give a rule
  have hset {operators : Operators} {keyword : String} (hkeyword : line.keyword = keyword)
      (hmem : keyword ∈ ["AND", "OR", "ACT", "ACCU"])
      (h : quiet (withOperators p operators) = .ok (p', notices)) : Adds line p p' := by
    have hother : keyword ≠ "END_RULEBLOCK" ∧ keyword ≠ "RULE" := by
      clear hkeyword
      revert keyword
      decide
    refine .of_quiet h (blockAfter_of_ne hopen (hkeyword ▸ hother.1)) (.of_eq rfl rfl rfl)
      (hopen ▸ silent_of_rules (hkeyword ▸ hother.2)) fun hnot => ?_
    exact absurd ⟨hopen, hkeyword ▸ hmem⟩ hnot
  unfold readRuleLine at h
  dsimp only at h
  split_ifs at h with hend hand hor hact haccu hrule
  · exact .of_quiet h (blockAfter_of_closing hopen hend) (.of_eq rfl rfl rfl)
      (hopen ▸ silent_of_rules (hend ▸ by decide)) fun _ => rfl
  · obtain ⟨norm, -, h⟩ := bind_eq_ok.mp h
    exact hset hand (by decide) h
  · obtain ⟨norm, -, h⟩ := bind_eq_ok.mp h
    exact hset hor (by decide) h
  · obtain ⟨activation, -, h⟩ := bind_eq_ok.mp h
    exact hset hact (by decide) h
  · obtain ⟨accumulation, -, h⟩ := bind_eq_ok.mp h
    exact hset haccu (by decide) h
  · obtain ⟨r, hr, h⟩ := bind_eq_ok.mp h
    obtain ⟨_, hadded, heq⟩ := map_eq_ok.mp h
    obtain ⟨rfl, -⟩ := Prod.mk.inj heq
    obtain ⟨hinputs, houtputs⟩ := Controller.variables_addRule r p.controller
    obtain ⟨hrules, hoperators⟩ := rules_of_addRule hadded
    refine ⟨blockAfter_of_ne hopen hend, ?_, ?_, fun {c} hc => ?_, fun _ => hoperators⟩
    · rw [hopen]
      exact (congrArg _ hinputs).trans (List.append_nil _).symm
    · rw [hopen]
      exact (congrArg _ houtputs).trans (List.append_nil _).symm
    · obtain ⟨statement, hstatement, hread⟩ := bind_eq_ok.mp (judge_eq_ok.mp hr)
      have hlater : (line.statement >>= readRule c) = .ok r :=
        bind_eq_ok.mpr ⟨statement, hstatement, readRule_of_resolves hc hread⟩
      have hgiven : ruleIn c (p.openBlock, line) = some r := by
        unfold ruleIn
        rw [if_pos ⟨hopen, hrule⟩, hlater]
        rfl
      rw [hgiven]
      exact hrules

/-- What a line that is read adds. -/
theorem adds_of_readLine (h : readLine line p = .ok (p', notices)) : Adds line p p' := by
  unfold readLine at h
  split at h
  · rename_i hempty
    have hsame : p.openBlock = blockAfter p.openBlock line.keyword := by
      rw [keyword_of_isEmpty hempty, blockAfter_blank]
    exact .of_quiet h hsame (.of_eq rfl rfl rfl) (silent_of_isEmpty hempty _) fun _ => rfl
  · split at h
    · rename_i hopen
      exact adds_of_readOutside (congrArg (Option.map OpenBlock.block) hopen) h
    · exact adds_of_readDeclaration (openBlock_of_block ‹_›) (.inl rfl) h
    · exact adds_of_readDeclaration (openBlock_of_block ‹_›) (.inr rfl) h
    · exact adds_of_readFuzzify (openBlock_of_block ‹_›) h
    · exact adds_of_readDefuzzify (openBlock_of_block ‹_›) h
    · exact adds_of_readRuleLine (openBlock_of_block ‹_›) h

/-! ## What a text adds -/

/-- The names that the lines declare in blocks of a kind, in order. -/
def declarationsIn (block : Block) (lines : List Line) : List String :=
  (placed none lines).filterMap (declarationIn block)

/-- The rules that the lines give with the variables of a controller, in order. -/
def rulesIn (c : Controller α) (lines : List Line) : List (Rule α) :=
  (placed none lines).filterMap (ruleIn c)

theorem filterMap_cons_toList {β γ : Type} (f : β → Option γ) (b : β) (items : List β) :
    (b :: items).filterMap f = (f b).toList ++ items.filterMap f := by
  rw [List.filterMap_cons]
  cases f b with
  | none => rfl
  | some c => rfl

theorem adds_of_readEach {lines : List Line} {q : Progress α}
    (h : (Action.forEach lines fun line => Action.changeNoting (readLine line)).Leads p q ()) :
    Resolves p.controller q.controller ∧
      q.controller.inputs.map (·.name) = p.controller.inputs.map (·.name) ++
        (placed p.openBlock lines).filterMap (declarationIn .inputs) ∧
      q.controller.outputs.map (·.name) = p.controller.outputs.map (·.name) ++
        (placed p.openBlock lines).filterMap (declarationIn .outputs) ∧
      (∀ {c}, Resolves q.controller c → q.controller.rules =
        ((placed p.openBlock lines).filterMap (ruleIn c)).foldl withRule p.controller.rules) ∧
      ((∀ place ∈ placed p.openBlock lines, ¬IsSetting place) →
        q.controller.operators = p.controller.operators) := by
  induction lines generalizing p with
  | nil =>
    obtain rfl := Action.leads_forEach_nil.mp h
    exact ⟨.of_eq rfl rfl, (List.append_nil _).symm, (List.append_nil _).symm, fun _ => rfl,
      fun _ => rfl⟩
  | cons line lines ih =>
    obtain ⟨p₁, hfirst, hrest⟩ := Action.leads_forEach_cons.mp h
    obtain ⟨notices, hfirst⟩ := Action.leads_changeNoting.mp hfirst
    have hadds := adds_of_readLine hfirst
    obtain ⟨hresolves, hinputs, houtputs, hrules, hoperators⟩ := ih hrest
    rw [hadds.block] at hinputs houtputs hrules hoperators
    have hgrown := (readLine_step hfirst).resolves
    unfold placed
    refine ⟨hgrown.trans hresolves, ?_, ?_, fun {c} hc => ?_, fun hnone => ?_⟩
    · rw [hinputs, hadds.inputs, filterMap_cons_toList, List.append_assoc]
    · rw [houtputs, hadds.outputs, filterMap_cons_toList, List.append_assoc]
    · rw [hrules hc, hadds.rules ((hgrown.trans hresolves).trans hc), filterMap_cons_toList,
        List.foldl_append]
    · obtain ⟨hline, hlines⟩ := List.forall_mem_cons.mp hnone
      rw [hoperators hlines, hadds.operators hline]

/-- The variables of a text that is read are those that it declares, and its rules those that its
lines give, without repetition, each in the order of the lines.  Without a setting the operators
stay as they were. -/
theorem readFor_in_order {base : Controller α} {text : List Char}
    (hread : (readFor base text).answer = .ok ()) :
    let c := (readFor base text).state.controller
    c.inputs.map (·.name) = declarationsIn .inputs (linesOf text) ∧
      c.outputs.map (·.name) = declarationsIn .outputs (linesOf text) ∧
      c.rules = firstOfEach Rule.equivalent (rulesIn c (linesOf text)) ∧
      ((∀ place ∈ placed none (linesOf text), ¬IsSetting place) →
        c.operators = base.operators) := by
  obtain ⟨q, _, hlines, hend⟩ := Action.leads_bind.mp (Action.leads_of_answer hread)
  obtain ⟨hstate, -⟩ := Action.leads_ask.mp hend
  change (readFor base text).state = q at hstate
  rw [hstate]
  obtain ⟨-, hinputs, houtputs, hrules, hoperators⟩ := adds_of_readEach hlines
  exact ⟨hinputs, houtputs, hrules (.of_eq rfl rfl), hoperators⟩

end Fcl

end FuzzyInference
