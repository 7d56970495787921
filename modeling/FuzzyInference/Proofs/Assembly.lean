import FuzzyInference.Proofs.Reachable
import FuzzyInference.Proofs.Readiness

/-!
# Controllers that are put together

Operations that take no term away keep a controller well formed: its names are distinct, its rules
refer to what is there, and none of them is there twice.  A failed operation keeps it so as well.
-/

namespace FuzzyInference

variable {α : Type}

/-- The operation takes no term away. -/
def VariableOperation.Additive : VariableOperation α → Prop
  | .replaceTerms _ => False
  | _ => True

/-- The operation takes no term away. -/
def OutputOperation.Additive : OutputOperation α → Prop
  | .replaceTerms _ => False
  | _ => True

/-- The operation takes no term away from any variable. -/
def Operation.Additive : Operation α → Prop
  | .onInput _ operation => operation.Additive
  | .onOutput _ operation => operation.Additive
  | _ => True

/-- The variables have one name, and the second one has no fewer terms. -/
def Variable.Extends (v v' : Variable α) : Prop :=
  v'.name = v.name ∧ v.terms.length ≤ v'.terms.length

theorem Variable.Extends.refl (v : Variable α) : v.Extends v := ⟨rfl, Nat.le_refl _⟩

theorem Variable.Extends.trans {v w u : Variable α} (h : v.Extends w) (h' : w.Extends u) :
    v.Extends u := ⟨h'.1.trans h.1, Nat.le_trans h.2 h'.2⟩

theorem Variable.Extends.of_outline {v v' : Variable α} (h : v'.outline = v.outline) :
    v.Extends v' := ⟨congrArg Prod.fst h, Nat.le_of_eq (length_terms_of_outline h).symm⟩

/-- The output variables have one name, and the second one has no fewer terms. -/
def OutputVariable.Extends (o o' : OutputVariable α) : Prop :=
  o.toVariable.Extends o'.toVariable

theorem OutputVariable.Extends.refl (o : OutputVariable α) : o.Extends o := ⟨rfl, Nat.le_refl _⟩

theorem OutputVariable.extends_setY (index : Int) (y : α) :
    (Action.change (OutputVariable.setY · index y)).Moves Extends :=
  Action.moves_change_map Extends.refl fun o _ => .refl o

namespace Controller

/-- If `c` is sound, then `c'` is, too. -/
def KeepsSound (c c' : Controller α) : Prop := Fcl.Sound c → Fcl.Sound c'

theorem keepsSound_change {f : Controller α → Except Fault (Controller α)}
    (h : ∀ c c', f c = .ok c' → c.KeepsSound c') : (Action.change f).Moves KeepsSound :=
  Action.moves_change (fun _ => id) h

end Controller

/-! ## What an evaluation leaves sound -/

theorem Controller.Valid.of_outline {c : Controller α} {r s : Rule α} (h : r.outline = s.outline)
    (hr : c.Valid r) : c.Valid s := by
  obtain ⟨hcondition, hconclusion⟩ := Prod.mk.inj h
  constructor
  · rw [← hcondition]
    exact hr.leaves
  · rw [← hconclusion]
    exact hr.conclusion

namespace Fcl

variable {c c' : Controller α}

theorem Sound.of_alike (hc : Sound c) (h : c.Alike c') : Sound c' := by
  constructor
  · have hnames := hc.names
    unfold Controller.NamesDistinct at hnames ⊢
    rwa [Controller.names_of_outline h.2]
  · have hrules : c'.rules.map Rule.outline = c.rules.map Rule.outline :=
      congrArg Outline.rules h.2
    have hcovers := Controller.covers_of_outline h.2
    have hvalid : ∀ r ∈ c.rules, c'.Valid r := fun r hr => (hc.rules r hr).of_covers hcovers
    exact forall_of_map_eq (fun r s hrs hr => hr.of_outline hrs) hrules hvalid

variable [Scalar α]

-- Whatever `base` finds under a name is found first after a join, too.
theorem covers_merged (base c : Controller α) : (merged base c).Covers base := by
  constructor
  · intro name v hv
    refine ⟨v, ?_, Nat.le_refl _⟩
    show (base.inputs ++ c.inputs).find? _ = _
    rw [List.find?_append]
    unfold Controller.input? at hv
    rw [hv, Option.some_or]
  · intro name o ho
    refine ⟨o, ?_, Nat.le_refl _⟩
    show (base.outputs ++ c.outputs).find? _ = _
    rw [List.find?_append]
    unfold Controller.output? at ho
    rw [ho, Option.some_or]

theorem Sound.merged {base : Controller α} (hbase : Sound base) (hc : Sound c)
    (hdisjoint : ∀ name ∈ c.names, name ∉ base.names) : Sound (merged base c) := by
  refine ⟨(Controller.keeps_merged hc.names hdisjoint).names hbase.names, ?_⟩
  intro r hr
  have hmem : r ∈ base.rules ++ c.rules := (sublist_foldl_withRule base.rules c.rules).subset hr
  rcases List.mem_append.mp hmem with hr | hr
  · exact (hbase.rules r hr).of_covers (covers_merged base c)
  · have hjoined := covers_joined hdisjoint
    exact (hc.rules r hr).of_covers ⟨hjoined.inputs, hjoined.outputs⟩

end Fcl

/-! ## What every operation leaves sound -/

variable [Scalar α]

theorem VariableOperation.run_extends {operation : VariableOperation α}
    (h : operation.Additive) : operation.run.Moves Variable.Extends := by
  cases operation with
  | addTerm t => exact fun v => ⟨rfl, Fcl.length_addTerm v t⟩
  | replaceTerms terms => exact h.elim
  | fuzzify x => exact (Variable.alike_fuzzify .checked x).mono fun _ _ => .of_outline
  | onTerm index operation =>
    intro v
    simp only [VariableOperation.run, Variable.onTerm]
    split
    · exact Variable.Extends.refl v
    · exact ⟨rfl, Nat.le_of_eq (List.length_set).symm⟩

theorem OutputOperation.run_extends {operation : OutputOperation α} (h : operation.Additive) :
    operation.run.Moves OutputVariable.Extends := by
  cases operation with
  | addTerm t => exact fun o => ⟨rfl, Fcl.length_addTerm o.toVariable t⟩
  | appendTerm t => exact fun o => ⟨rfl, Fcl.length_addTerm o.toVariable t⟩
  | replaceTerms terms => exact h.elim
  | fuzzify x => exact fun o => .of_outline (Variable.alike_fuzzify .checked x o.toVariable)
  | onTerm index operation =>
    have hterm : (VariableOperation.onTerm index operation).Additive := trivial
    exact fun o => VariableOperation.run_extends hterm o.toVariable
  | discretize =>
    refine OutputVariable.moves_buildGrid OutputVariable.Extends.refl fun o o' ho => ?_
    exact .of_outline (congrArg Prod.fst (OutputVariable.outline_discretize ho))
  | reset | setResolution _ | setMethod _ =>
    exact Action.moves_change_map OutputVariable.Extends.refl fun o _ => .refl o
  | setY index y => exact OutputVariable.extends_setY index y
  | fill start ys =>
    refine Action.moves_forEach OutputVariable.Extends.refl (fun _ _ _ => Variable.Extends.trans) ?_
    exact fun item _ => OutputVariable.extends_setY (start + item.2) item.1
  | defuzzify => exact OutputVariable.moves_defuzzify fun o _ => OutputVariable.Extends.refl o
  | setDefault value => exact fun o => OutputVariable.Extends.refl o

namespace Controller

theorem keepsSound_replaceRules (rules : List (Rule α)) :
    (replaceRules rules).Moves KeepsSound := by
  refine moves_replaceRules (fun _ => id) fun c hchecked hc => ⟨hc.names, fun r hr => ?_⟩
  have hmem : r ∈ rules := (sublist_foldl_withRule [] rules).subset hr
  exact (checkRule_eq_ok.mp (hchecked r hmem)).of_covers (c.covers_rules _)

theorem keepsSound_readFcl (text : List Char) : (readFcl (α := α) text).Moves KeepsSound := by
  intro base hbase
  by_cases h : (Fcl.readFor base text).answer = .ok () ∧
      ∀ name ∈ (Fcl.readFor base text).state.controller.names, name ∉ base.names
  · obtain ⟨notices, hread⟩ := Fcl.readFcl_of_disjoint h.1 h.2
    rw [hread]
    exact hbase.merged (Fcl.readFor_sound base text) h.2
  · obtain ⟨notices, fault, hread⟩ := Fcl.readFcl_of_not_disjoint h
    rw [hread]
    exact hbase

end Controller

open Controller (KeepsSound)

/-- No operation that takes no term away leaves a rule without what it refers to. -/
theorem Operation.run_keepsSound {operation : Operation α} (h : operation.Additive) :
    operation.run.Moves KeepsSound := by
  have hevaluate (values : List (String × α)) :
      (Controller.evaluate .checked values).Moves KeepsSound :=
    (Controller.alike_evaluate .checked values).mono fun _ _ halike hc => hc.of_alike halike
  cases operation with
  | addInput v => exact Controller.keepsSound_change fun _ _ hadd hc => hc.addInput hadd
  | addOutput name terms resolution method defaultValue =>
    refine Controller.keepsSound_change fun c c' hrun hc => ?_
    obtain ⟨o, -, hadd⟩ := bind_eq_ok.mp hrun
    exact hc.addOutput hadd
  | addRule condition conclusion => exact fun c hc => hc.addRule ⟨condition, conclusion, 0⟩
  | setRules _ => exact Controller.keepsSound_replaceRules _
  | clearRules => exact fun c hc => ⟨hc.names, fun r hr => absurd hr List.not_mem_nil⟩
  | setAnd _ | setOr _ | setActivation _ | setAccumulation _ =>
    exact Action.moves_change_map (fun _ => id) fun _ _ hc => hc.of_grows (.of_eq rfl rfl rfl)
  | rename name => exact fun c hc => hc.of_grows (.of_eq rfl rfl rfl)
  | discretize => exact Controller.alike_discretize.mono fun _ _ halike hc => hc.of_alike halike
  | fuzzify name x =>
    exact (Controller.alike_fuzzify .checked name x).mono fun _ _ halike hc => hc.of_alike halike
  | evaluateRules =>
    exact Controller.alike_evaluateRules.mono fun _ _ halike hc => hc.of_alike halike
  | evaluate values =>
    exact Action.moves_bind (R := KeepsSound) (fun _ _ _ hcd hde => hde ∘ hcd) (hevaluate values)
      fun _ _ => id
  | readFcl text => exact Controller.keepsSound_readFcl text
  | onInput name operation =>
    exact (Fcl.grows_onInput name _ (VariableOperation.run_extends h)).mono
      fun _ _ hgrows hc => hc.of_grows hgrows
  | onOutput name operation =>
    exact (Fcl.grows_onOutput name _ (OutputOperation.run_extends h)).mono
      fun _ _ hgrows hc => hc.of_grows hgrows

/-! ## Controllers that come out of such operations -/

namespace Controller

/-- The controllers that come out of any sequence of operations that take no term away, successful
or not, on an empty controller. An output variable may have been in use before it is added. -/
inductive Assembled : Controller α → Prop
  | empty (config : Config α) (name : String) : Assembled (ofConfig config name)
  | addOutput {c : Controller α} (o : OutputVariable α) :
    Assembled c → Assembled (Action.change (·.addOutput o) c).state
  | step {c : Controller α} {operation : Operation α} :
    operation.Additive → Assembled c → Assembled (operation.run c).state

/-- Names are distinct, so that every variable is the one that is found by its name; rules refer to
what is there, and none of them is equivalent to a later one. -/
structure WellFormed (c : Controller α) : Prop where
  names : c.NamesDistinct
  inputs : ∀ v ∈ c.inputs, c.input? v.name = some v ∧ c.output? v.name = none
  outputs : ∀ o ∈ c.outputs, c.output? o.name = some o ∧ c.input? o.name = none
  valid : ∀ r ∈ c.rules, c.Valid r
  distinct : RulesDistinct c.rules

theorem wellFormed_of_sound {c : Controller α} (hc : Fcl.Sound c)
    (hrules : RulesDistinct c.rules) : c.WellFormed := by
  have hnames := hc.names
  unfold NamesDistinct names at hnames
  obtain ⟨hinputs, houtputs, hdisjoint⟩ := List.nodup_append.mp hnames
  refine ⟨hc.names, fun v hv => ⟨find?_of_nodup hinputs hv, ?_⟩,
    fun o ho => ⟨find?_of_nodup houtputs ho, ?_⟩, hc.rules, hrules⟩
  · have hmem : v.name ∈ c.inputs.map (·.name) := List.mem_map.mpr ⟨v, hv, rfl⟩
    exact find?_of_not_mem_map fun h => hdisjoint _ hmem _ h rfl
  · have hmem : o.name ∈ c.outputs.map (·.name) := List.mem_map.mpr ⟨o, ho, rfl⟩
    exact find?_of_not_mem_map fun h => hdisjoint _ h _ hmem rfl

theorem Assembled.kept {c : Controller α} (h : c.Assembled) :
    Fcl.Sound c ∧ RulesDistinct c.rules := by
  induction h with
  | empty config name =>
    exact ⟨⟨List.nodup_nil, fun _ hr => absurd hr List.not_mem_nil⟩, List.Pairwise.nil⟩
  | @addOutput c o _ ih =>
    have hsound : (Action.change (Controller.addOutput · o)).Moves KeepsSound :=
      keepsSound_change fun _ _ hadd hc => hc.addOutput hadd
    have hkeeps : (Action.change (Controller.addOutput · o)).Moves Keeps :=
      keeps_change fun _ _ => keeps_addOutput
    exact ⟨hsound c ih.1, (hkeeps c).rules ih.2⟩
  | @step c operation hadditive _ ih =>
    exact ⟨operation.run_keepsSound hadditive c ih.1, (keeps_run operation c).rules ih.2⟩

theorem Assembled.foldl_run {c : Controller α} (h : c.Assembled) {operations : List (Operation α)}
    (hadditive : ∀ operation ∈ operations, operation.Additive) :
    (operations.foldl (fun c operation => (operation.run c).state) c).Assembled := by
  induction operations generalizing c with
  | nil => exact h
  | cons operation operations ih =>
    obtain ⟨hfirst, hrest⟩ := List.forall_mem_cons.mp hadditive
    exact ih (.step hfirst h) hrest

/-- Whatever a controller has gone through, it is well formed as long as no term has been taken
away.  So its conditions have strengths, what its rules conclude is there, and inferring the rules
meets no obstacle but a missing grid, a term without points, or a position without an integer
part. -/
theorem Assembled.wellFormed {c : Controller α} (h : c.Assembled) : c.WellFormed ∧
    (∀ r ∈ c.rules, (∃ s, r.condition.strength c.inputs c.operators.norm = .ok s) ∧
      ∃ o t, c.output? r.conclusion.name = some o ∧ o.term r.conclusion.term = .ok t) ∧
    ∀ f, evaluateRules.Fails c f → c.Obstacle f := by
  obtain ⟨hsound, hrules⟩ := h.kept
  refine ⟨wellFormed_of_sound hsound hrules, fun r hr => ?_,
    fun f hf => obstacle_of_evaluateRules hsound.rules hf⟩
  have hvalid := hsound.rules r hr
  obtain ⟨o, ho, hterm⟩ := hvalid.conclusion
  obtain ⟨t, ht⟩ := Variable.exists_term_iff.mpr hterm
  exact ⟨Condition.exists_strength_of_found hvalid.leaves _, o, t, ho, ht⟩

/-- A lamp that follows the light. Its first name is taken when it comes again, its first rule is
about a term that comes later, and its last rule repeats the one before it. -/
def lampOperations : List (Operation Rat) := [
  .addInput ⟨"light", [.ofPoints "dim" [⟨0, 1⟩, ⟨10, 0⟩]]⟩,
  .addInput ⟨"light", []⟩,
  .addOutput "lamp" [.ofPoints "on" [⟨0, 0⟩, ⟨2, 1⟩]] (.integer 5) (.text "COG") (.real 0),
  .addRule (.is ⟨"light", 1, true⟩) ⟨"lamp", 0, 1⟩,
  .onInput "light" (.addTerm (.ofPoints "bright" [⟨0, 0⟩, ⟨10, 1⟩])),
  .addRule (.or (.is ⟨"light", 0, false⟩) (.is ⟨"light", 1, true⟩)) ⟨"lamp", 0, 1⟩,
  .discretize,
  .evaluate [("light", 3)],
  .addRule (.or (.is ⟨"light", 1, true⟩) (.is ⟨"light", 0, false⟩)) ⟨"lamp", 0, 1⟩]

/-- The controller that these operations leave. -/
def lamp : Controller Rat :=
  lampOperations.foldl (fun c operation => (operation.run c).state) (.ofConfig .standard "")

theorem Assembled.wellFormed_lamp : lamp.Assembled ∧ lamp.rules.length = 1 ∧ lamp.WellFormed ∧
    (∀ r ∈ lamp.rules, (∃ s, r.condition.strength lamp.inputs lamp.operators.norm = .ok s) ∧
      ∃ o t, lamp.output? r.conclusion.name = some o ∧ o.term r.conclusion.term = .ok t) ∧
    ∀ f, evaluateRules.Fails lamp f → lamp.Obstacle f := by
  have hassembled : lamp.Assembled := by
    refine Assembled.foldl_run (.empty .standard "") ?_
    simp [lampOperations, Operation.Additive, VariableOperation.Additive]
  exact ⟨hassembled, by decide +kernel, hassembled.wellFormed⟩

end Controller

end FuzzyInference
