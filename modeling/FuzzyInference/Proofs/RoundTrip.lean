import FuzzyInference.Proofs.WrittenController
import FuzzyInference.Proofs.WrittenDoubles

/-!
# Writing and reading a controller

A controller whose numbers are read back as themselves is read back as itself: nothing that it says
is lost, and it is written again as the same text.
-/

namespace FuzzyInference

open List (Forall₂)

variable {α : Type}

/-! ## The text says the outline -/

section Restore

variable [Zero α]

/-- A term of an outline, with nothing else. -/
def Term.restore (p : String × List (Point α)) : Term α := ⟨p.1, p.2, 0, []⟩

/-- A variable of an outline, with nothing else. -/
def Variable.restore (p : String × List (String × List (Point α))) : Variable α :=
  ⟨p.1, p.2.map Term.restore⟩

/-- An output of an outline, with nothing else. -/
def OutputVariable.restore
    (p : (String × List (String × List (Point α))) × Defuzzification × α) : OutputVariable α :=
  ⟨Variable.restore p.1, 0, p.2.2, 0, p.2.1, none⟩

/-- A controller of an outline, with nothing else. -/
def Outline.restore (o : Outline α) (config : Config α) : Controller α where
  config
  name := o.name
  inputs := o.inputs.map Variable.restore
  outputs := o.outputs.map OutputVariable.restore
  rules := o.rules.map fun p => ⟨p.1, p.2, 0⟩
  operators := o.operators

theorem Variable.term_restore (v : Variable α) (index : Int) :
    (restore v.outline).term index = (v.term index).map fun t => Term.restore t.outline := by
  have hterms : (restore v.outline).terms = v.terms.map fun t => Term.restore t.outline := by
    unfold restore outline
    rw [List.map_map]
    rfl
  unfold term
  rw [hterms, List.length_map, List.getElem?_map]
  dsimp only
  split
  · cases v.terms[index.toNat]? <;> rfl
  · rfl

end Restore

namespace Controller

variable [Scalar α]

theorem inputs_restore (c : Controller α) : (c.outline.restore c.config).inputs =
    c.inputs.map fun v => Variable.restore v.outline := List.map_map

theorem outputs_restore (c : Controller α) : (c.outline.restore c.config).outputs =
    c.outputs.map fun o => OutputVariable.restore o.outline := List.map_map

theorem rules_restore (c : Controller α) : (c.outline.restore c.config).rules =
    c.rules.map fun r => ⟨r.condition, r.conclusion, 0⟩ := List.map_map

theorem input_restore (c : Controller α) (name : String) :
    (c.outline.restore c.config).input name =
      (c.input name).map fun v => Variable.restore v.outline := by
  have hfind : (c.outline.restore c.config).input? name =
      (c.input? name).map fun v => Variable.restore v.outline := by
    unfold input?
    rw [inputs_restore, List.find?_map]
    rfl
  unfold input
  rw [hfind]
  cases c.input? name <;> rfl

theorem output_restore (c : Controller α) (name : String) :
    (c.outline.restore c.config).output name =
      (c.output name).map fun o => OutputVariable.restore o.outline := by
  have hfind : (c.outline.restore c.config).output? name =
      (c.output? name).map fun o => OutputVariable.restore o.outline := by
    unfold output?
    rw [outputs_restore, List.find?_map]
    rfl
  unfold output
  rw [hfind]
  cases c.output? name <;> rfl

end Controller

namespace Fcl

variable [Scalar α]

theorem conditionText_restore (c : Controller α) (condition : Condition) :
    conditionText (c.outline.restore c.config) condition = conditionText c condition := by
  induction condition with
  | is leaf =>
    unfold conditionText
    rw [Controller.input_restore, map_bind]
    congr 1
    ext1 v
    rw [Variable.term_restore, map_bind]
    rfl
  | and l r ihl ihr =>
    unfold conditionText
    rw [ihl, ihr]
  | or l r ihl ihr =>
    unfold conditionText
    rw [ihl, ihr]

theorem conclusionText_restore (c : Controller α) (conclusion : Conclusion α) :
    conclusionText (c.outline.restore c.config) conclusion = conclusionText c conclusion := by
  unfold conclusionText
  rw [Controller.output_restore, map_bind]
  congr 1
  ext1 o
  rw [show (OutputVariable.restore o.outline).toVariable = Variable.restore o.toVariable.outline
    from rfl, Variable.term_restore, map_bind]
  rfl

theorem ruleLines_restore (c : Controller α) :
    ruleLines (c.outline.restore c.config) = ruleLines c := by
  have hline (number : Nat) (r : Rule α) :
      ruleLine (c.outline.restore c.config) number ⟨r.condition, r.conclusion, 0⟩ =
        ruleLine c number r := by
    unfold ruleLine
    rw [conditionText_restore, conclusionText_restore]
  have hlines : (c.outline.restore c.config).rules.zipIdx.mapM (fun item =>
      ruleLine (c.outline.restore c.config) (item.2 + 1) item.1) =
        c.rules.zipIdx.mapM fun item => ruleLine c (item.2 + 1) item.1 := by
    rw [Controller.rules_restore, List.zipIdx_map, List.mapM_map]
    exact congrArg (List.mapM · c.rules.zipIdx) (funext fun item => hline (item.2 + 1) item.1)
  unfold ruleLines
  exact congr (congrArg bind hlines) rfl

theorem checkVariable_restore (v : Variable α) :
    checkVariable (Variable.restore v.outline) = checkVariable v := by
  unfold checkVariable Variable.restore Variable.outline
  dsimp only
  rw [List.map_map, forM_map_eq]
  rfl

theorem checkNames_restore (c : Controller α) :
    checkNames (c.outline.restore c.config) = checkNames c := by
  have hinputs : (c.outline.restore c.config).inputs.forM checkVariable =
      c.inputs.forM checkVariable := by
    rw [Controller.inputs_restore, forM_map_eq]
    exact congrArg (List.forM c.inputs) (funext checkVariable_restore)
  have houtputs : ((c.outline.restore c.config).outputs.forM fun o => checkVariable o.toVariable) =
      c.outputs.forM fun o => checkVariable o.toVariable := by
    rw [Controller.outputs_restore, forM_map_eq]
    exact congrArg (List.forM c.outputs) (funext fun o => checkVariable_restore o.toVariable)
  unfold checkNames
  rw [hinputs, houtputs]
  rfl

theorem fuzzifyLines_restore (v : Variable α) :
    fuzzifyLines (Variable.restore v.outline) = fuzzifyLines v := by
  unfold fuzzifyLines Variable.restore Variable.outline
  rw [List.map_map, List.map_map]
  rfl

theorem defuzzifyLines_restore (o : OutputVariable α) :
    defuzzifyLines (OutputVariable.restore o.outline) = defuzzifyLines o := by
  unfold defuzzifyLines OutputVariable.restore OutputVariable.outline Variable.restore
    Variable.outline
  rw [List.map_map, List.map_map]
  rfl

-- The lines of a controller are those of its outline.
theorem controllerLines_restore (c : Controller α) :
    controllerLines (c.outline.restore c.config) = controllerLines c := by
  unfold controllerLines
  rw [checkNames_restore, ruleLines_restore, Controller.inputs_restore, Controller.outputs_restore,
    List.flatMap_map, List.flatMap_map, List.map_map, List.map_map, funext fuzzifyLines_restore,
    funext defuzzifyLines_restore]
  rfl

end Fcl

-- Controllers with one configuration and one outline have one text.
theorem Controller.toFcl_of_outline [Scalar α] {c c' : Controller α}
    (hconfig : c'.config = c.config) (houtline : c'.outline = c.outline) : c'.toFcl = c.toFcl := by
  unfold toFcl
  rw [← Fcl.controllerLines_restore c', ← Fcl.controllerLines_restore c, houtline, hconfig]

/-! ## What is read as itself -/

theorem Comparison.reread_eq_iff {inputs : List (Variable α)} {leaf : Comparison} :
    leaf.reread inputs = leaf ↔
      ∀ v ∈ inputs.find? (·.name == leaf.name), v.firstIndex leaf.term = leaf.term := by
  unfold reread
  split
  · rename_i v hv
    rw [hv]
    cases leaf
    simp
  · rename_i hnone
    rw [hnone]
    simp

theorem Condition.reread_eq_iff {inputs : List (Variable α)} {condition : Condition} :
    condition.reread inputs = condition ↔
      ∀ leaf ∈ condition.leaves, ∀ v ∈ inputs.find? (·.name == leaf.name),
        v.firstIndex leaf.term = leaf.term := by
  induction condition with
  | is leaf =>
    unfold reread leaves
    rw [Condition.is.injEq, Comparison.reread_eq_iff, List.forall_mem_singleton]
  | and l r ihl ihr =>
    unfold reread leaves
    rw [Condition.and.injEq, ihl, ihr, List.forall_mem_append]
  | or l r ihl ihr =>
    unfold reread leaves
    rw [Condition.or.injEq, ihl, ihr, List.forall_mem_append]

/-- The coordinates of the points of a term. -/
def Term.numbers (t : Term α) : List α := t.points.flatMap fun p => [p.x, p.y]

/-- All numbers that are written for a controller. -/
def Controller.numbers (c : Controller α) : List α :=
  (c.inputs.flatMap fun v => v.terms.flatMap Term.numbers) ++
    (c.outputs.flatMap fun o => o.terms.flatMap Term.numbers ++ [o.defaultValue]) ++
    c.rules.map fun r => r.conclusion.weight

theorem Controller.mem_numbers {c : Controller α} :
    (∀ v ∈ c.inputs, ∀ t ∈ v.terms, ∀ x ∈ t.numbers, x ∈ c.numbers) ∧
      (∀ o ∈ c.outputs, ∀ t ∈ o.terms, ∀ x ∈ t.numbers, x ∈ c.numbers) ∧
      (∀ o ∈ c.outputs, o.defaultValue ∈ c.numbers) ∧
      ∀ r ∈ c.rules, r.conclusion.weight ∈ c.numbers := by
  unfold numbers
  refine ⟨fun v hv t ht x hx => ?_, fun o ho t ht x hx => ?_, fun o ho => ?_, fun r hr => ?_⟩
  · exact List.mem_append_left _ (List.mem_append_left _
      (List.mem_flatMap.mpr ⟨v, hv, List.mem_flatMap.mpr ⟨t, ht, hx⟩⟩))
  · exact List.mem_append_left _ (List.mem_append_right _ (List.mem_flatMap.mpr
      ⟨o, ho, List.mem_append_left _ (List.mem_flatMap.mpr ⟨t, ht, hx⟩)⟩))
  · exact List.mem_append_left _ (List.mem_append_right _
      (List.mem_flatMap.mpr ⟨o, ho, by simp⟩))
  · exact List.mem_append_right _ (List.mem_map.mpr ⟨r, hr, rfl⟩)

section Identity

variable [Scalar α]

theorem Term.outline_reread {t : Term α} (hsorted : Point.Sorted t.points)
    (hreads : ∀ x ∈ t.numbers, Scalar.ReadsBack x) : t.reread.outline = t.outline := by
  have hpoint : ∀ p ∈ t.points, p.reread = id p := by
    intro p hp
    have hmem : ∀ x ∈ [p.x, p.y], x ∈ t.numbers := fun x hx => List.mem_flatMap.mpr ⟨p, hp, hx⟩
    unfold Point.reread
    rw [(hreads p.x (hmem p.x (by simp))).reread_eq, (hreads p.y (hmem p.y (by simp))).reread_eq]
    rfl
  unfold reread ofPoints outline
  rw [List.map_congr_left hpoint, List.map_id, hsorted.sort_eq]

theorem Variable.outline_reread {v : Variable α}
    (h : ∀ t ∈ v.terms, t.reread.outline = t.outline) : v.reread.outline = v.outline := by
  unfold reread outline
  rw [List.map_map]
  exact congrArg (Prod.mk v.name) (List.map_congr_left h)

theorem OutputVariable.outline_reread {o : OutputVariable α}
    (h : ∀ t ∈ o.terms, t.reread.outline = t.outline)
    (hdefault : Scalar.ReadsBack o.defaultValue) : o.reread.outline = o.outline := by
  unfold reread outline
  rw [hdefault.reread_eq]
  exact congrArg (·, _, _) (Variable.outline_reread h)

theorem Conclusion.reread_eq_iff [Scalar.SoleOne α] {outputs : List (OutputVariable α)}
    {conclusion : Conclusion α} (hweight : Scalar.ReadsBack conclusion.weight) :
    conclusion.reread outputs = conclusion ↔
      ∀ o ∈ outputs.find? (·.name == conclusion.name),
        o.toVariable.firstIndex conclusion.term = conclusion.term := by
  -- a weight of one is not written, and one is what is read for it
  have hsame : (if conclusion.weight == 1 then 1 else Scalar.reread conclusion.weight) =
      conclusion.weight := by
    split
    · exact (Scalar.SoleOne.eq_one _ ‹_›).symm
    · exact hweight.reread_eq
  unfold reread
  rw [hsame]
  dsimp only
  split
  · rename_i o ho
    rw [ho]
    cases conclusion
    simp
  · rename_i hnone
    rw [hnone]
    simp

/-- Every term that a rule refers to is the first one of its name. -/
structure Rule.NamesFirst (c : Controller α) (r : Rule α) : Prop where
  leaves : ∀ leaf ∈ r.condition.leaves, ∀ v ∈ c.input? leaf.name,
    v.firstIndex leaf.term = leaf.term
  conclusion : ∀ o ∈ c.output? r.conclusion.name,
    o.toVariable.firstIndex r.conclusion.term = r.conclusion.term

theorem Rule.outline_reread_iff [Scalar.SoleOne α] {c : Controller α} {r : Rule α}
    (hweight : Scalar.ReadsBack r.conclusion.weight) :
    (r.reread c).outline = r.outline ↔ r.NamesFirst c := by
  unfold outline reread
  rw [Prod.mk.injEq, Condition.reread_eq_iff, Conclusion.reread_eq_iff hweight]
  exact ⟨fun h => ⟨h.1, h.2⟩, fun h => ⟨h.leaves, h.conclusion⟩⟩

/-- Rules without repetition are read as they were written if and only if each of them refers to
the first terms of their names. -/
theorem Controller.rules_reread_iff [Scalar.SoleOne α] {c : Controller α}
    (hrules : RulesDistinct c.rules)
    (hweights : ∀ r ∈ c.rules, Scalar.ReadsBack r.conclusion.weight) :
    c.reread.rules.map Rule.outline = c.rules.map Rule.outline ↔
      ∀ r ∈ c.rules, r.NamesFirst c := by
  have hsame : (c.rules.map (Rule.reread c)).map Rule.outline = c.rules.map Rule.outline ↔
      ∀ r ∈ c.rules, r.NamesFirst c := by
    rw [List.map_map, List.map_inj_left]
    exact forall₂_congr fun r hr => Rule.outline_reread_iff (hweights r hr)
  rw [← hsame]
  constructor
  · intro h
    -- none of the rules has been left out, since there are as many as before
    have hkept : c.reread.rules.Sublist (c.rules.map (Rule.reread c)) :=
      sublist_foldl_withRule [] _
    have hlength : c.reread.rules.length = (c.rules.map (Rule.reread c)).length := by
      have := congrArg List.length h
      simpa using this
    rw [← h, hkept.eq_of_length hlength]
  · intro h
    have hkept : c.reread.rules = c.rules.map (Rule.reread c) :=
      foldl_withRule_of_distinct (hrules.of_outline h)
    rw [hkept, h]

/-- A controller in whose written form nothing is lost: the points of its terms stand from left to
right, its rules name the first term of each name, and no number is undefined. -/
structure Controller.Proper (c : Controller α) : Prop where
  inputs : ∀ v ∈ c.inputs, ∀ t ∈ v.terms, t.points ≠ [] ∧ Point.Sorted t.points
  outputs : ∀ o ∈ c.outputs, ∀ t ∈ o.terms, t.points ≠ [] ∧ Point.Sorted t.points
  nonempty : ∀ o ∈ c.outputs, o.terms ≠ []
  numbers : ∀ x ∈ c.numbers, Scalar.isNaN x = false
  conditions : ∀ r ∈ c.rules, ∀ leaf ∈ r.condition.leaves, ∀ v ∈ c.input? leaf.name,
    v.firstIndex leaf.term = leaf.term
  conclusions : ∀ r ∈ c.rules, ∀ o ∈ c.output? r.conclusion.name,
    o.toVariable.firstIndex r.conclusion.term = r.conclusion.term
  noStar : ∀ v ∈ c.inputs, v.name.toList.head? ≠ some '*'

namespace Controller

variable {c : Controller α}

theorem printed_of_legible (h : ∀ x ∈ c.numbers, Scalar.Legible x) : c.Printed := by
  obtain ⟨hinputs, houtputs, hdefaults, hweights⟩ := c.mem_numbers
  have hpoint {t : Term α} {p : Point α} (ht : ∀ x ∈ t.numbers, x ∈ c.numbers)
      (hp : p ∈ t.points) : p.Legible := by
    have hmem : ∀ x ∈ [p.x, p.y], x ∈ t.numbers := fun x hx => List.mem_flatMap.mpr ⟨p, hp, hx⟩
    exact ⟨h _ (ht _ (hmem p.x (by simp))), h _ (ht _ (hmem p.y (by simp)))⟩
  exact {
    inputs := fun v hv t ht p hp => hpoint (hinputs v hv t ht) hp
    outputs := fun o ho t ht p hp => hpoint (houtputs o ho t ht) hp
    defaults := fun o ho => h _ (hdefaults o ho)
    weights := fun r hr => h _ (hweights r hr) }

theorem printed_doubles (c : Controller Float) : c.Printed :=
  printed_of_legible fun x _ => Scalar.legible_double x

theorem Proper.legible (h : c.Proper) (hreads : ∀ x ∈ c.numbers, Scalar.ReadsBack x) :
    c.Legible := by
  have hpopulated : c.Populated := ⟨fun v hv t ht => (h.inputs v hv t ht).1,
    fun o ho t ht => (h.outputs o ho t ht).1, h.nonempty⟩
  exact hpopulated.legible (printed_of_legible fun x hx => (hreads x hx).legible) h.noStar

/-- The written form of a proper controller says all that the controller says. -/
theorem Proper.outline_reread [Scalar.SoleOne α] (h : c.Proper) (hrules : RulesDistinct c.rules)
    (hreads : ∀ x ∈ c.numbers, Scalar.ReadsBack x) : c.reread.outline = c.outline := by
  obtain ⟨hinputs, houtputs, hdefaults, hweights⟩ := c.mem_numbers
  have hvariables : (c.inputs.map Variable.reread).map Variable.outline =
      c.inputs.map Variable.outline := by
    rw [List.map_map]
    exact List.map_congr_left fun v hv => Variable.outline_reread fun t ht =>
      Term.outline_reread (h.inputs v hv t ht).2 fun x hx => hreads x (hinputs v hv t ht x hx)
  have houtlines : (c.outputs.map OutputVariable.reread).map OutputVariable.outline =
      c.outputs.map OutputVariable.outline := by
    rw [List.map_map]
    exact List.map_congr_left fun o ho => OutputVariable.outline_reread (fun t ht =>
      Term.outline_reread (h.outputs o ho t ht).2 fun x hx => hreads x (houtputs o ho t ht x hx))
      (hreads _ (hdefaults o ho))
  have houtline : c.reread.rules.map Rule.outline = c.rules.map Rule.outline :=
    (rules_reread_iff hrules fun r hr => hreads _ (hweights r hr)).mpr
      fun r hr => ⟨h.conditions r hr, h.conclusions r hr⟩
  unfold outline
  rw [houtline]
  show Outline.mk _ (List.map _ (List.map _ _)) (List.map _ (List.map _ _)) _ _ = _
  rw [hvariables, houtlines]
  rfl

/-- Writing and then reading is the identity on what a controller says.  The text of a proper
controller that any sequence of operations has built is read under its configuration without a
fault; the name, the variables with their terms, the operators and the rules come back in order, and
the controller that is read has the same text. -/
theorem readFcl_toFcl [Scalar.PlainText α] [Scalar.SoleOne α] {text : String} (hc : c.Reachable)
    (htext : c.toFcl = .ok text) (hproper : c.Proper)
    (hreads : ∀ x ∈ c.numbers, Scalar.isNaN x = false → Scalar.ReadsBack x) : ∃ c' notices,
      (ofConfig c.config "").readFcl text.toList = ⟨c', notices, .ok ()⟩ ∧
        c'.outline = c.outline ∧ c'.toFcl = .ok text := by
  obtain ⟨hconfig, hdistinct, hrules⟩ := hc.kept
  have hback : ∀ x ∈ c.numbers, Scalar.ReadsBack x := fun x hx => hreads x hx (hproper.numbers x hx)
  obtain ⟨c', notices, hread, hsettings, hreread⟩ :=
    Fcl.exists_readFcl_toFcl htext hconfig hdistinct (hproper.legible hback)
  have hsame : c'.outline = c.outline := by
    rw [hreread, hproper.outline_reread hrules hback]
  refine ⟨c', notices, hread, hsame, ?_⟩
  rw [toFcl_of_outline hsettings hsame, htext]

end Controller

end Identity

/-- The operations that build a controller with two input terms, an output and a weighted rule. -/
def heaterOperations : List (Operation Rat) := [
  .addInput ⟨"room", [.ofPoints "cold" [⟨0, 1⟩, ⟨10, 0⟩], .ofPoints "warm" [⟨0, 0⟩, ⟨10, 1⟩]]⟩,
  .addOutput "heat" [.ofPoints "high" [⟨0, 0⟩, ⟨2, 1⟩]] (.integer 5) (.text "COA") (.real 0),
  .addRule (.and (.is ⟨"room", 0, false⟩) (.or (.is ⟨"room", 1, true⟩) (.is ⟨"room", 0, false⟩)))
    ⟨"heat", 0, 2⟩]

/-- The controller that these operations build. -/
def heater : Controller Rat :=
  heaterOperations.foldl (fun c operation => (operation.run c).state) (.ofConfig .standard "demo")

theorem Controller.readFcl_toFcl_heater : ∃ text c' notices, heater.toFcl = .ok text ∧
    (ofConfig heater.config "").readFcl text.toList = ⟨c', notices, .ok ()⟩ ∧
      c'.outline = heater.outline ∧ c'.toFcl = .ok text := by
  have hconfig : (Config.standard : Config Rat).Sound := ⟨⟨[], rfl⟩, 0, rfl⟩
  have hreachable : heater.Reachable := .step _ (.step _ (.step _ (.empty "demo" hconfig)))
  have hproper : heater.Proper := by
    constructor
    all_goals decide +kernel
  have hreads : ∀ x ∈ heater.numbers, Scalar.ReadsBack x := by decide +kernel
  have hwritten : heater.toFcl.toOption.isSome = true := by decide +kernel
  obtain ⟨text, htext⟩ : ∃ text, heater.toFcl = .ok text := by
    cases h : heater.toFcl with
    | ok text => exact ⟨text, rfl⟩
    | error f =>
      rw [h] at hwritten
      cases hwritten
  obtain ⟨c', notices, hread⟩ := readFcl_toFcl hreachable htext hproper fun x hx _ => hreads x hx
  exact ⟨text, c', notices, htext, hread⟩

end FuzzyInference
