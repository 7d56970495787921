import FuzzyInference.Proofs.Joining
import FuzzyInference.Proofs.Operation

/-!
# Reachable controllers

Whatever is done with a controller, its configuration stays, its names remain distinct, and no two
of its rules are equivalent.
-/

namespace FuzzyInference

variable {α : Type}

theorem Controller.names_of_outline {c c' : Controller α} (h : c'.outline = c.outline) :
    c'.names = c.names := by
  have hinputs := congrArg (fun o => o.inputs.map Prod.fst) h
  have houtputs := congrArg (fun o => o.outputs.map fun p => p.1.1) h
  simp only [Controller.outline, List.map_map] at hinputs houtputs
  unfold Controller.names
  exact congrArg₂ (· ++ ·) hinputs houtputs

theorem Controller.covers_of_outline {c c' : Controller α} (h : c'.outline = c.outline) :
    c'.Covers c := by
  constructor
  · intro name v hv
    have hinputs : c'.inputs.map Variable.outline = c.inputs.map Variable.outline :=
      congrArg Outline.inputs h
    obtain ⟨v', hv', hsame⟩ := Action.find?_of_map_eq
      (fun _ _ hxy => congrArg (fun p => p.1 == name) hxy) hinputs hv
    exact ⟨v', hv', Nat.le_of_eq (Variable.length_terms_of_outline hsame).symm⟩
  · intro name o ho
    have houtputs : c'.outputs.map OutputVariable.outline =
        c.outputs.map OutputVariable.outline := congrArg Outline.outputs h
    obtain ⟨o', ho', hsame⟩ := Action.find?_of_map_eq
      (fun _ _ hxy => congrArg (fun p => p.1.1 == name) hxy) houtputs ho
    exact ⟨o', ho', Nat.le_of_eq (Variable.length_terms_of_outline (congrArg Prod.fst hsame)).symm⟩

/-- The variables have one name. -/
def Variable.SameName (v v' : Variable α) : Prop := v'.name = v.name

/-- The output variables have one name. -/
def OutputVariable.SameName (o o' : OutputVariable α) : Prop := o'.name = o.name

theorem Variable.SameName.refl (v : Variable α) : v.SameName v := rfl

theorem OutputVariable.SameName.refl (o : OutputVariable α) : o.SameName o := rfl

theorem OutputVariable.name_setY (index : Int) (y : α) :
    (Action.change (OutputVariable.setY · index y)).Moves SameName :=
  Action.moves_change_map SameName.refl fun _ _ => rfl

variable [Scalar α]

/-! ## Rules without repetition -/

/-- No rule is equivalent to a later one. -/
def RulesDistinct (rules : List (Rule α)) : Prop :=
  rules.Pairwise fun r s => r.equivalent s = false

/-- Equivalence of rules, which looks at their outlines only. -/
def equivalentOutlines (p q : Condition × Conclusion α) : Bool :=
  p.1.equivalent q.1 && p.2.name == q.2.name && p.2.term == q.2.term && p.2.weight == q.2.weight

theorem rulesDistinct_iff_outlines (rules : List (Rule α)) :
    RulesDistinct rules ↔
      (rules.map Rule.outline).Pairwise fun p q => equivalentOutlines p q = false := by
  rw [List.pairwise_map]
  rfl

theorem RulesDistinct.of_outline {rules rules' : List (Rule α)} (h : RulesDistinct rules)
    (houtline : rules'.map Rule.outline = rules.map Rule.outline) : RulesDistinct rules' := by
  rw [rulesDistinct_iff_outlines] at h ⊢
  rwa [houtline]

theorem RulesDistinct.withRule {rules : List (Rule α)} (h : RulesDistinct rules) (r : Rule α) :
    RulesDistinct (Fcl.withRule rules r) := by
  unfold Fcl.withRule
  split
  · exact h
  · rename_i hnew
    refine List.pairwise_append.mpr ⟨h, List.pairwise_singleton _ _, ?_⟩
    intro s hs t ht
    rw [List.mem_singleton.mp ht]
    simp only [List.any_eq_true, not_exists, not_and, Bool.not_eq_true] at hnew
    exact hnew s hs

theorem RulesDistinct.foldl_withRule {rules : List (Rule α)} (h : RulesDistinct rules)
    (more : List (Rule α)) : RulesDistinct (more.foldl Fcl.withRule rules) := by
  induction more generalizing rules with
  | nil => exact h
  | cons r more ih => exact ih (h.withRule r)

theorem rulesDistinct_firstOfEach (rules : List (Rule α)) :
    RulesDistinct (firstOfEach Rule.equivalent rules) := by
  have hnil : RulesDistinct ([] : List (Rule α)) := List.Pairwise.nil
  exact hnil.foldl_withRule rules

-- Rules are taken over in order, some of them perhaps not.
theorem sublist_foldl_withRule (kept more : List (Rule α)) :
    (more.foldl Fcl.withRule kept).Sublist (kept ++ more) := by
  induction more generalizing kept with
  | nil => rw [List.foldl_nil, List.append_nil]
  | cons r more ih =>
    rw [List.foldl_cons]
    refine (ih _).trans ?_
    unfold Fcl.withRule
    split
    · exact (List.Sublist.refl kept).append (List.sublist_cons_self r more)
    · rw [List.append_assoc, List.singleton_append]

-- Rules without repetition are all taken over, one after the other.
theorem foldl_withRule_of_distinct {kept more : List (Rule α)} (h : RulesDistinct (kept ++ more)) :
    more.foldl Fcl.withRule kept = kept ++ more := by
  induction more generalizing kept with
  | nil => rw [List.foldl_nil, List.append_nil]
  | cons r more ih =>
    have hnew : Fcl.withRule kept r = kept ++ [r] := by
      unfold Fcl.withRule
      rw [if_neg]
      simp only [List.any_eq_true, not_exists, not_and, Bool.not_eq_true]
      intro s hs
      exact (List.pairwise_append.mp h).2.2 s hs r List.mem_cons_self
    rw [List.append_cons] at h
    rw [List.foldl_cons, hnew, ih h, List.append_assoc, List.singleton_append]

/-! ## What every operation keeps -/

/-- The configuration stays, and names and rules remain distinct. -/
structure Controller.Keeps (c c' : Controller α) : Prop where
  config : c'.config = c.config
  names : c.NamesDistinct → c'.NamesDistinct
  rules : RulesDistinct c.rules → RulesDistinct c'.rules

namespace Controller

theorem Keeps.refl (c : Controller α) : c.Keeps c := ⟨rfl, id, id⟩

theorem Keeps.trans {c d e : Controller α} (h : c.Keeps d) (h' : d.Keeps e) : c.Keeps e :=
  ⟨h'.config.trans h.config, h'.names ∘ h.names, h'.rules ∘ h.rules⟩

theorem Keeps.of_names {c c' : Controller α} (hconfig : c'.config = c.config)
    (hnames : c'.names = c.names) (hrules : c'.rules = c.rules) : c.Keeps c' := by
  refine ⟨hconfig, fun h => ?_, fun h => ?_⟩
  · unfold NamesDistinct at h ⊢
    rwa [hnames]
  · rwa [hrules]

theorem Alike.keeps {c c' : Controller α} (h : c.Alike c') : c.Keeps c' := by
  refine ⟨h.1, fun hnames => ?_, fun hrules => ?_⟩
  · unfold NamesDistinct at hnames ⊢
    rwa [names_of_outline h.2]
  · exact hrules.of_outline (congrArg Outline.rules h.2)

end Controller

open Controller (Keeps)

theorem VariableOperation.run_name (operation : VariableOperation α) :
    operation.run.Moves Variable.SameName := by
  intro v
  cases operation with
  | addTerm t => rfl
  | replaceTerms terms => rfl
  | fuzzify x => exact congrArg Prod.fst (Variable.alike_fuzzify .checked x v)
  | onTerm index operation =>
    simp only [VariableOperation.run, Variable.onTerm]
    split
    · rfl
    · rfl

theorem OutputOperation.run_name (operation : OutputOperation α) :
    operation.run.Moves OutputVariable.SameName := by
  cases operation with
  | addTerm t => exact fun _ => rfl
  | appendTerm t => exact fun _ => rfl
  | replaceTerms terms => exact fun _ => rfl
  | fuzzify x => exact fun o => congrArg Prod.fst (Variable.alike_fuzzify .checked x o.toVariable)
  | onTerm index operation =>
    exact fun o => VariableOperation.run_name (.onTerm index operation) o.toVariable
  | discretize =>
    refine OutputVariable.moves_buildGrid OutputVariable.SameName.refl fun o o' h => ?_
    exact congrArg (fun p => p.1.1) (OutputVariable.outline_discretize h)
  | reset | setResolution _ | setMethod _ =>
    exact Action.moves_change_map OutputVariable.SameName.refl fun _ _ => rfl
  | setY index y => exact OutputVariable.name_setY index y
  | fill start ys =>
    refine Action.moves_forEach OutputVariable.SameName.refl (fun _ _ _ h h' => h'.trans h) ?_
    intro item _
    exact OutputVariable.name_setY (start + item.2) item.1
  | defuzzify => exact OutputVariable.moves_defuzzify fun o _ => OutputVariable.SameName.refl o
  | setDefault value => exact fun _ => rfl

namespace Controller

theorem keeps_change {f : Controller α → Except Fault (Controller α)}
    (h : ∀ c c', f c = .ok c' → c.Keeps c') : (Action.change f).Moves Keeps :=
  Action.moves_change Keeps.refl h

theorem keeps_addInput {c c' : Controller α} {v : Variable α} (h : c.addInput v = .ok c') :
    c.Keeps c' := by
  have hnames : c.NamesDistinct → c'.NamesDistinct := fun hc => hc.addInput h
  obtain ⟨-, rfl⟩ := addInput_eq_ok.mp h
  exact ⟨rfl, hnames, id⟩

theorem keeps_addOutput {c c' : Controller α} {o : OutputVariable α} (h : c.addOutput o = .ok c') :
    c.Keeps c' := by
  have hnames : c.NamesDistinct → c'.NamesDistinct := fun hc => hc.addOutput h
  obtain ⟨-, rfl⟩ := addOutput_eq_ok.mp h
  exact ⟨rfl, hnames, id⟩

theorem keeps_addRule (r : Rule α) : (addRule r).Moves Keeps := by
  intro c
  unfold addRule
  split
  · exact Keeps.refl c
  · split
    · exact Keeps.refl c
    · rename_i hnew
      refine ⟨rfl, id, fun hrules => ?_⟩
      have hadd := hrules.withRule r
      unfold Fcl.withRule at hadd
      rwa [if_neg hnew] at hadd

theorem keeps_merged {base c : Controller α} (hc : c.NamesDistinct)
    (hdisjoint : ∀ name ∈ c.names, name ∉ base.names) : base.Keeps (Fcl.merged base c) := by
  refine ⟨rfl, fun hbase => ?_, fun hrules => hrules.foldl_withRule c.rules⟩
  unfold NamesDistinct at hc hbase ⊢
  have hboth : (base.names ++ c.names).Nodup :=
    List.nodup_append.mpr ⟨hbase, hc, fun a ha b hb hab => hdisjoint b hb (hab ▸ ha)⟩
  -- the names are those of both controllers in another order
  refine hboth.perm ?_
  unfold names Fcl.merged
  rw [List.map_append, List.map_append, List.append_assoc, List.append_assoc]
  refine List.Perm.append_left _ ?_
  rw [← List.append_assoc, ← List.append_assoc]
  exact List.perm_append_comm.append_right _

theorem keeps_readFcl (text : List Char) : (readFcl (α := α) text).Moves Keeps := by
  intro base
  by_cases h : (Fcl.readFor base text).answer = .ok () ∧
      ∀ name ∈ (Fcl.readFor base text).state.controller.names, name ∉ base.names
  · obtain ⟨notices, hread⟩ := Fcl.readFcl_of_disjoint h.1 h.2
    rw [hread]
    exact keeps_merged (Fcl.readFor_sound base text).names h.2
  · obtain ⟨notices, fault, hread⟩ := Fcl.readFcl_of_not_disjoint h
    rw [hread]
    exact Keeps.refl base

/-- No operation changes the configuration or brings in a name or a rule for a second time. -/
theorem keeps_run (operation : Operation α) : operation.run.Moves Keeps := by
  cases operation with
  | addInput v => exact keeps_change fun _ _ => keeps_addInput
  | addOutput name terms resolution method defaultValue =>
    refine keeps_change fun c c' h => ?_
    obtain ⟨o, -, hadd⟩ := bind_eq_ok.mp h
    exact keeps_addOutput hadd
  | addRule condition conclusion => exact keeps_addRule _
  | setRules _ =>
    exact moves_replaceRules Keeps.refl fun _ _ => ⟨rfl, id, fun _ => rulesDistinct_firstOfEach _⟩
  | clearRules => exact fun c => ⟨rfl, id, fun _ => List.Pairwise.nil⟩
  | setAnd _ | setOr _ | setActivation _ | setAccumulation _ =>
    exact Action.moves_change_map Keeps.refl fun _ _ => .of_names rfl rfl rfl
  | rename name => exact fun c => .of_names rfl rfl rfl
  | discretize => exact alike_discretize.mono fun _ _ => Alike.keeps
  | fuzzify name x => exact (alike_fuzzify .checked name x).mono fun _ _ => Alike.keeps
  | evaluateRules => exact alike_evaluateRules.mono fun _ _ => Alike.keeps
  | evaluate values =>
    refine Action.moves_bind (R := Keeps) (fun _ _ _ => Keeps.trans) ?_ fun _ => Keeps.refl
    exact (alike_evaluate .checked values).mono fun _ _ => Alike.keeps
  | readFcl text => exact keeps_readFcl text
  | onInput name operation =>
    refine Action.moves_within (Action.moves_onFirst Variable.SameName.refl operation.run_name) ?_
    intro c inputs h
    refine .of_names rfl ?_ rfl
    exact congrArg (· ++ c.outputs.map (·.name)) (Action.map_eq_of_forall₂ (fun _ _ hv => hv) h)
  | onOutput name operation =>
    refine Action.moves_within
      (Action.moves_onFirst OutputVariable.SameName.refl operation.run_name) ?_
    intro c outputs h
    refine .of_names rfl ?_ rfl
    exact congrArg (c.inputs.map (·.name) ++ ·) (Action.map_eq_of_forall₂ (fun _ _ ho => ho) h)

theorem Reachable.foldl_run {c : Controller α} (h : c.Reachable)
    (operations : List (Operation α)) :
    (operations.foldl (fun c operation => (operation.run c).state) c).Reachable := by
  induction operations generalizing c with
  | nil => exact h
  | cons operation operations ih => exact ih (h.step operation)

/-- A reachable controller has a sound configuration, distinct names and no repeated rule. -/
theorem Reachable.kept {c : Controller α} (h : c.Reachable) :
    c.config.Sound ∧ c.NamesDistinct ∧ RulesDistinct c.rules := by
  induction h with
  | empty name hconfig => exact ⟨hconfig, List.nodup_nil, List.Pairwise.nil⟩
  | @step c operation _ ih =>
    obtain ⟨hconfig, hnames, hrules⟩ := ih
    have hkeeps := keeps_run operation c
    rw [hkeeps.config]
    exact ⟨hconfig, hkeeps.names hnames, hkeeps.rules hrules⟩

end Controller

end FuzzyInference
