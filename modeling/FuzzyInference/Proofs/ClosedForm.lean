import Mathlib.Algebra.BigOperators.Group.List.Basic
import Mathlib.Algebra.Order.BigOperators.Group.List
import Mathlib.Algebra.Order.Ring.Rat
import Mathlib.Data.List.Fold
import Mathlib.Tactic.Linarith
import FuzzyInference.Proofs.Accumulation
import FuzzyInference.Proofs.Equivalence

/-!
# The closed form of inference

Over the rationals the height of a cell is the greatest of the activated heights that reach it, or
their sum cut off at one.  Neither depends on the order of the rules.
-/

namespace FuzzyInference

/-! ## Heights -/

/-- The height of a cell that starts at zero and gets some activated heights: the greatest of them,
or their sum, which stays below one. -/
def Accumulation.total : Accumulation → List Rat → Rat
  | .maximum, heights => heights.foldr max 0
  | .boundedSum, heights => min 1 heights.sum

/-- The order in which heights are accumulated does not matter: they are compared with each other,
or none of them is negative. -/
def Accumulation.Orderless (accumulation : Accumulation) (heights : List Rat) : Prop :=
  accumulation = .maximum ∨ ∀ a ∈ heights, 0 ≤ a

theorem foldl_maximum (heights : List Rat) (y : Rat) :
    heights.foldl (fun y a => Accumulation.maximum.apply a y) y = heights.foldr max y := by
  have hstep : (fun y a : Rat => Accumulation.maximum.apply a y) = fun y a => max y a := by
    funext y a
    rw [max_comm]
    exact Scalar.maximum_rat a y
  rw [hstep]
  exact List.foldl_eq_foldr

-- A saturated sum stays saturated, because nothing is taken away from it.
theorem foldl_boundedSum {heights : List Rat} (h : ∀ a ∈ heights, 0 ≤ a) {y : Rat} (hy : y ≤ 1) :
    heights.foldl (fun y a => Accumulation.boundedSum.apply a y) y = min 1 (y + heights.sum) := by
  induction heights generalizing y with
  | nil => rw [List.foldl_nil, List.sum_nil, add_zero, min_eq_right hy]
  | cons a heights ih =>
    obtain ⟨ha, hrest⟩ := List.forall_mem_cons.mp h
    have hsum : 0 ≤ heights.sum := List.sum_nonneg hrest
    have hstep : Accumulation.boundedSum.apply a y = min 1 (a + y) := Scalar.minimum_rat 1 (a + y)
    rw [List.foldl_cons, hstep, ih hrest (min_le_left 1 (a + y)), List.sum_cons]
    by_cases hfull : 1 ≤ a + y
    · rw [min_eq_left hfull, min_eq_left (by linarith), min_eq_left (by linarith)]
    · rw [min_eq_right (not_le.mp hfull).le, add_comm a y, add_assoc]

namespace Accumulation

variable {accumulation : Accumulation} {heights heights' : List Rat}

theorem Orderless.foldl_apply (h : accumulation.Orderless heights) :
    heights.foldl (fun y a => accumulation.apply a y) 0 = accumulation.total heights := by
  cases accumulation with
  | maximum => exact foldl_maximum heights 0
  | boundedSum =>
    have hnonneg : ∀ a ∈ heights, 0 ≤ a := h.resolve_left (by simp)
    rw [foldl_boundedSum hnonneg zero_le_one, zero_add]
    rfl

theorem Orderless.of_subset (h : accumulation.Orderless heights) (hsub : heights' ⊆ heights) :
    accumulation.Orderless heights' := h.imp_right fun hnonneg a ha => hnonneg a (hsub ha)

theorem total_perm (hperm : heights.Perm heights') :
    accumulation.total heights = accumulation.total heights' := by
  cases accumulation with
  | maximum => exact hperm.foldr_eq 0
  | boundedSum => exact congrArg (min 1) hperm.sum_eq

end Accumulation

/-! ## Permuted rules -/

section Permutation

variable {operators : Operators} {rules rules' : List (Rule Rat)}

-- Every cell gets the same heights in another order, so the grids agree cell by cell.
theorem foldl_lift_perm {o : OutputVariable Rat} {ys : List Rat} (hys : ∀ y ∈ ys, y = 0)
    (hterms : ∀ t ∈ o.terms, t.samples.length = o.resolution) (hperm : rules.Perm rules')
    (hheights : ∀ j, operators.accumulation.Orderless
      (rules.filterMap (·.heightAt? operators.activation o j)))
    (hrules : ∀ r ∈ rules, ∃ s, r.stretch o = .ok s) :
    rules.foldl (Rule.lift operators o) ys = rules'.foldl (Rule.lift operators o) ys := by
  have hrules' : ∀ r ∈ rules', ∃ s, r.stretch o = .ok s :=
    fun r hr => hrules r (hperm.mem_iff.mpr hr)
  -- place by place; inside the grid both heights are the same total
  apply List.ext_getElem?
  intro j
  by_cases hj : j < o.resolution
  · have hsame := hperm.filterMap (·.heightAt? operators.activation o j)
    have hheights' := (hheights j).of_subset hsame.symm.subset
    rw [Rule.getElem?_foldl_lift hterms hrules hj, Rule.getElem?_foldl_lift hterms hrules' hj]
    cases hy : ys[j]? with
    | none => rfl
    | some y =>
      rw [hys y (List.mem_of_getElem? hy), Option.map_some, Option.map_some,
        (hheights j).foldl_apply, hheights'.foldl_apply, Accumulation.total_perm hsame]
  · -- beyond the grid no height is left once there is a rule
    have hle : o.resolution ≤ j := Nat.le_of_not_lt hj
    have hnil : rules = [] ↔ rules' = [] := by
      rw [← List.length_eq_zero_iff, ← List.length_eq_zero_iff, hperm.length_eq]
    rw [Rule.getElem?_foldl_lift_of_le hterms hrules hle,
      Rule.getElem?_foldl_lift_of_le hterms hrules' hle]
    simp only [hnil]

theorem OutputVariable.Cleared.foldlM_accumulate_perm {o o' : OutputVariable Rat} {grid : Grid Rat}
    (ho : o.Cleared grid) (hperm : rules.Perm rules')
    (hheights : ∀ j, operators.accumulation.Orderless
      (rules.filterMap (·.heightAt? operators.activation o j)))
    (h : rules.foldlM (fun o r => r.accumulate operators o) o = .ok o') :
    rules'.foldlM (fun o r => r.accumulate operators o) o = .ok o' := by
  have hsome : o.grid.isSome = true := by rw [ho.built]; rfl
  rw [← withHeights_self ho.built, Rule.foldlM_accumulate hsome] at h ⊢
  rw [← foldl_lift_perm ho.heights ho.samples hperm hheights h.1]
  exact ⟨fun r hr => h.1 r (hperm.mem_iff.mpr hr), h.2⟩

-- The rules on the first output are permuted among themselves, and so are the others.
theorem foldlM_conclude_perm {outputs outputs' : List (OutputVariable Rat)}
    (hcleared : ∀ o ∈ outputs, ∃ grid, o.Cleared grid) (hperm : rules.Perm rules')
    (hheights : ∀ o ∈ outputs, ∀ j,
      operators.accumulation.Orderless (Rule.contributions operators.activation rules o j))
    (h : rules.foldlM (Rule.conclude operators) outputs = .ok outputs') :
    rules'.foldlM (Rule.conclude operators) outputs = .ok outputs' := by
  induction outputs generalizing rules rules' outputs' with
  | nil =>
    obtain ⟨rfl, rfl⟩ := Rule.foldlM_conclude_nil.mp h
    rw [← hperm.nil_eq]
    rfl
  | cons o rest ih =>
    obtain ⟨⟨grid, ho⟩, hrest⟩ := List.forall_mem_cons.mp hcleared
    obtain ⟨hfirst, hothers⟩ := List.forall_mem_cons.mp hheights
    obtain ⟨o', rest', hrun, hmore, rfl⟩ := (Rule.foldlM_conclude_cons rfl).mp h
    -- the rules on the first output are permuted among themselves, and so are the others
    have hrun' := ho.foldlM_accumulate_perm (hperm.filter _) hfirst hrun
    have hmore' := ih hrest (hperm.filter _) (fun p hp j => (hothers p hp j).of_subset
      (((List.filter_sublist).filter _).filterMap _).subset) hmore
    exact (Rule.foldlM_conclude_cons rfl).mpr ⟨o', rest', hrun', hmore', rfl⟩

/-! ## Activated rules -/

/-- The rule without its condition. -/
def Rule.bare (r : Rule Rat) : Rule Rat := { r with condition := .is ⟨"", 0, false⟩ }

theorem Rule.contributions_bare (activation : Activation) (rules : List (Rule Rat))
    (o : OutputVariable Rat) (j : Nat) :
    contributions activation (rules.map bare) o j = contributions activation rules o j := by
  unfold contributions
  rw [List.filter_map, List.filterMap_map]
  rfl

theorem Rule.foldlM_conclude_bare (operators : Operators) (rules : List (Rule Rat))
    (outputs : List (OutputVariable Rat)) :
    (rules.map bare).foldlM (conclude operators) outputs =
      rules.foldlM (conclude operators) outputs := by
  rw [List.foldlM_map]
  rfl

-- Equivalent rules differ in their conditions only, and not in how strong these are.
theorem Rule.activate_of_equivalent {inputs : List (Variable Rat)} {pair : NormPair}
    {r s : Rule Rat} (h : r.equivalent s = true) :
    (r.activate inputs pair).toOption.map bare = (s.activate inputs pair).toOption.map bare := by
  have hbare (q : Rule Rat) : (q.activate inputs pair).toOption.map bare =
      (q.condition.strength inputs pair).toOption.map fun strength =>
        bare ⟨q.condition, q.conclusion, strength * q.conclusion.weight⟩ := by
    unfold activate
    cases q.condition.strength inputs pair with
    | error f => rfl
    | ok strength => rfl
  obtain ⟨hcondition, hconclusion⟩ := equivalent_iff.mp h
  rw [hbare, hbare, Condition.strength_of_equivalent hcondition, hconclusion]
  rfl

theorem mapM_activate_perm {inputs : List (Variable Rat)} {pair : NormPair}
    {given given' : List (Rule Rat)} (hperm : given.Perm given')
    (h : (firstOfEach Rule.equivalent given).mapM (Rule.activate inputs pair) = .ok rules) :
    ∃ rules', (firstOfEach Rule.equivalent given').mapM (Rule.activate inputs pair) = .ok rules' ∧
      (rules.map Rule.bare).Perm (rules'.map Rule.bare) := by
  let seen (r : Rule Rat) : Option (Rule Rat) := (r.activate inputs pair).toOption.map Rule.bare
  have hseen {kept results : List (Rule Rat)}
      (hrun : kept.mapM (Rule.activate inputs pair) = .ok results) :
      kept.map seen = (results.map Rule.bare).map some := by
    have hmap := congrArg (List.map (Option.map Rule.bare)) (map_toOption_of_mapM hrun)
    rw [List.map_map, List.map_map] at hmap
    rw [List.map_map]
    exact hmap
  have hsame := map_firstOfEach_perm (f := seen) (fun _ _ => Rule.activate_of_equivalent) hperm
  rw [hseen h] at hsame
  -- whatever is activated on one side is activated on the other
  have hall : ∀ r ∈ firstOfEach Rule.equivalent given', ∃ r', r.activate inputs pair = .ok r' := by
    intro r hr
    obtain ⟨b, -, hb⟩ := List.mem_map.mp (hsame.mem_iff.mpr (List.mem_map_of_mem hr))
    cases hr' : r.activate inputs pair with
    | ok r' => exact ⟨r', rfl⟩
    | error f =>
      simp only [seen, hr'] at hb
      cases hb
  obtain ⟨rules', hrun⟩ := exists_mapM_eq_ok.mpr hall
  refine ⟨rules', hrun, ?_⟩
  rw [hseen hrun] at hsame
  exact (List.map_perm_map_iff (Option.some_injective _)).mp hsame

end Permutation

/-! ## Evaluations -/

theorem OutputVariable.grid_of_settle {o o' : OutputVariable Rat} (h : o.settle = .ok o') :
    o'.name = o.name ∧ o'.grid = o.grid := by
  obtain ⟨grid, -, rfl⟩ := map_eq_ok.mp h
  exact ⟨rfl, rfl⟩

namespace Controller

/-- The height of the accumulated set of an output in a cell of its grid. -/
def height? {α : Type} (c : Controller α) (name : String) (j : Nat) : Option α :=
  (c.output? name).bind fun o => o.grid.bind fun grid => grid.ys[j]?

theorem setRules_eq_ok {α : Type} [Scalar α] {c d : Controller α} {rules : List (Rule α)} :
    c.setRules rules = .ok d ↔ (∀ r ∈ rules, c.Valid r) ∧
      d = { c with rules := firstOfEach Rule.equivalent rules } := by
  unfold setRules
  rw [map_eq_ok]
  constructor
  · rintro ⟨_, h, rfl⟩
    exact ⟨fun r hr => checkRule_eq_ok.mp (forM_eq_ok.mp h r hr), rfl⟩
  · rintro ⟨h, rfl⟩
    exact ⟨(), forM_eq_ok.mpr fun r hr => checkRule_eq_ok.mpr (h r hr), rfl⟩

theorem find?_of_mapM {α : Type} {name : String}
    {f : OutputVariable α → Except Fault (OutputVariable α)}
    (hname : ∀ o o', f o = .ok o' → o'.name = o.name) {before after : List (OutputVariable α)}
    (hrun : before.mapM f = .ok after) {o : OutputVariable α}
    (ho : before.find? (·.name == name) = some o) :
    ∃ o', after.find? (·.name == name) = some o' ∧ f o = .ok o' :=
  Action.find?_of_forall₂ (R := fun o o' => f o = .ok o')
    (fun o o' h => congrArg (· == name) (hname o o' h)) (mapM_eq_ok.mp hrun) ho

section Steps

variable {α : Type} [Scalar α] {c : Controller α} {prepared concluded : List (OutputVariable α)}
  {rules : List (Rule α)}

theorem exists_degree_of_strength {pair : NormPair} {condition : Condition} {strength : α}
    (h : condition.strength c.inputs pair = .ok strength) :
    ∀ leaf ∈ condition.leaves, ∃ a, Condition.degree c.inputs leaf = .ok a := by
  induction condition generalizing strength with
  | is leaf =>
    intro other hother
    rw [List.mem_singleton.mp hother]
    exact ⟨strength, h⟩
  | and l r ihl ihr =>
    obtain ⟨a, hl, h⟩ := bind_eq_ok.mp h
    obtain ⟨b, hr, -⟩ := bind_eq_ok.mp h
    exact List.forall_mem_append.mpr ⟨ihl hl, ihr hr⟩
  | or l r ihl ihr =>
    obtain ⟨a, hl, h⟩ := bind_eq_ok.mp h
    obtain ⟨b, hr, -⟩ := bind_eq_ok.mp h
    exact List.forall_mem_append.mpr ⟨ihl hl, ihr hr⟩

theorem exists_term_of_degree {leaf : Comparison} {a : α}
    (h : Condition.degree c.inputs leaf = .ok a) :
    ∃ v, c.input? leaf.name = some v ∧ 0 ≤ leaf.term ∧ leaf.term < v.terms.length := by
  unfold Condition.degree at h
  split at h
  · cases h
  · rename_i v hv
    obtain ⟨t, ht, -⟩ := map_eq_ok.mp h
    exact ⟨v, hv, Variable.exists_term_iff.mp ⟨t, ht⟩⟩

-- An evaluation runs through every rule, so it fails where a rule refers to something missing.
theorem valid_of_run (hprepare : c.outputs.mapM prepare = .ok prepared)
    (hactivate : c.rules.mapM (Rule.activate c.inputs c.operators.norm) = .ok rules)
    (hconclude : rules.foldlM (Rule.conclude c.operators) prepared = .ok concluded) :
    ∀ r ∈ c.rules, c.Valid r := by
  intro r hr
  obtain ⟨r', hr', hactivated⟩ := exists_mem_of_mapM_eq_ok hactivate hr
  obtain ⟨strength, hstrength, rfl⟩ := map_eq_ok.mp hactivated
  refine ⟨fun leaf hleaf => ?_, ?_⟩
  · -- the strength has been computed, so every comparison found its term
    obtain ⟨a, ha⟩ := exists_degree_of_strength hstrength leaf hleaf
    exact exists_term_of_degree ha
  · -- the conclusion has been accumulated, so it found its output and its term there
    obtain ⟨o', ho'⟩ := Rule.exists_output_of_conclude hconclude hr'
    obtain ⟨o, ho, hprepared⟩ := Action.find?_of_forall₂ (R := fun o' o => prepare o = .ok o')
      (fun o' o h => congrArg (· == r.conclusion.name)
        (congrArg (fun p => p.1.1) (OutputVariable.alike_prepare h)).symm)
      (List.Forall₂.flip (mapM_eq_ok.mp hprepare)) ho'
    obtain ⟨grid, hgrid, rfl, hcleared⟩ := OutputVariable.cleared_of_prepare hprepared
    obtain ⟨o'', -, hrun⟩ := Rule.find?_foldlM_conclude hconclude ho'
    have hstretch := hcleared.exists_stretch hrun _
      (List.mem_filter.mpr ⟨hr', beq_self_eq_true r.conclusion.name⟩)
    have hterm := Rule.exists_term_of_stretch hstretch
    exact ⟨o, ho, hterm⟩

end Steps

variable {c : Controller Rat} {prepared concluded outputs : List (OutputVariable Rat)}
  {rules : List (Rule Rat)}

theorem height?_of_run (hprepare : c.outputs.mapM prepare = .ok prepared)
    (hconclude : rules.foldlM (Rule.conclude c.operators) prepared = .ok concluded)
    (hsettle : concluded.mapM OutputVariable.settle = .ok outputs) {name : String}
    {o : OutputVariable Rat} (ho : c.output? name = some o) {j : Nat} (hj : j < o.resolution)
    (hcell : (c.height? name j).isSome = true)
    (hheights : c.operators.accumulation.Orderless
      (Rule.contributions c.operators.activation rules o j)) :
    height? { c with rules, outputs } name j =
      some (c.operators.accumulation.total
        (Rule.contributions c.operators.activation rules o j)) := by
  -- the output after each of the three steps
  obtain ⟨o₁, ho₁, hprepared⟩ := find?_of_mapM
    (fun _ _ h => congrArg (fun p => p.1.1) (OutputVariable.alike_prepare h)) hprepare ho
  obtain ⟨o₂, ho₂, hrun⟩ := Rule.find?_foldlM_conclude hconclude ho₁
  obtain ⟨o₃, ho₃, hsettled⟩ := find?_of_mapM
    (fun _ _ h => (OutputVariable.grid_of_settle h).1) hsettle ho₂
  obtain ⟨grid, hgrid, rfl, hcleared⟩ := OutputVariable.cleared_of_prepare hprepared
  obtain ⟨ys, rfl, hys⟩ := hcleared.foldlM_accumulate hrun
  have hfind : output? { c with rules, outputs } name = some o₃ := ho₃
  have hname : o.name = name := by simpa using List.find?_some ho
  have hlength : j < grid.ys.length := by
    unfold height? at hcell
    rw [ho, Option.bind_some, hgrid, Option.bind_some] at hcell
    simpa using hcell
  have hsame : (rules.filter (·.concludesOn name)).filterMap
      (·.heightAt? c.operators.activation (o.withHeights (grid.ys.map fun _ => 0)) j) =
        Rule.contributions c.operators.activation rules o j := by
    rw [← Rule.contributions_withHeights, Rule.contributions, ← hname]
    rfl
  unfold height?
  rw [hfind, Option.bind_some, (OutputVariable.grid_of_settle hsettled).2]
  show (((o.withHeights _).grid.map fun grid => { grid with ys }).bind fun grid => grid.ys[j]?) = _
  rw [hcleared.built, Option.map_some, Option.bind_some]
  dsimp only
  rw [hys j hj, hsame, hheights.foldl_apply, List.getElem?_map, List.getElem?_eq_getElem hlength]
  rfl

theorem foldlM_conclude_of_bare {rules' : List (Rule Rat)}
    (hprepare : c.outputs.mapM prepare = .ok prepared)
    (hbare : (rules.map Rule.bare).Perm (rules'.map Rule.bare))
    (hheights : ∀ o ∈ c.outputs, ∀ j, c.operators.accumulation.Orderless
      (Rule.contributions c.operators.activation rules o j))
    (hconclude : rules.foldlM (Rule.conclude c.operators) prepared = .ok concluded) :
    rules'.foldlM (Rule.conclude c.operators) prepared = .ok concluded := by
  -- conditions play no part any more, so the rules may lose them
  rw [← Rule.foldlM_conclude_bare] at hconclude ⊢
  refine foldlM_conclude_perm (fun o' ho' => ?_) hbare (fun o' ho' j => ?_) hconclude
  · obtain ⟨o, -, hprepared⟩ := mem_of_mapM_eq_ok hprepare ho'
    obtain ⟨grid, -, -, hcleared⟩ := OutputVariable.cleared_of_prepare hprepared
    exact ⟨_, hcleared⟩
  · obtain ⟨o, ho, hprepared⟩ := mem_of_mapM_eq_ok hprepare ho'
    obtain ⟨grid, -, rfl, -⟩ := OutputVariable.cleared_of_prepare hprepared
    rw [Rule.contributions_bare, Rule.contributions_withHeights]
    exact hheights o ho j

/-- Inference in closed form.  After a successful evaluation every cell has the greatest of the
activated heights that reach it, or their sum cut off at one if none of them is negative.  In these
cases the outputs are the same after any permutation of the rules has been installed.  Rules without
repetition are those that installing them gives. -/
theorem evaluateRules_closedForm {c c' : Controller Rat} {notices : List Notice}
    (h : evaluateRules c = ⟨c', notices, .ok ()⟩) :
    c.rules.mapM (Rule.activate c.inputs c.operators.norm) = .ok c'.rules ∧
    (∀ name o j, c.output? name = some o → j < o.resolution → (c.height? name j).isSome = true →
      c.operators.accumulation.Orderless
        (Rule.contributions c.operators.activation c'.rules o j) →
      c'.height? name j = some (c.operators.accumulation.total
        (Rule.contributions c.operators.activation c'.rules o j))) ∧
    (∀ (b : Controller Rat) (rules rules' : List (Rule Rat)), b.setRules rules = .ok c →
      rules.Perm rules' →
      (∀ o ∈ c.outputs, ∀ j, c.operators.accumulation.Orderless
        (Rule.contributions c.operators.activation c'.rules o j)) →
      ∃ d d' more, b.setRules rules' = .ok d ∧ evaluateRules d = ⟨d', more, .ok ()⟩ ∧
        d'.outputs = c'.outputs) ∧
    (RulesDistinct c.rules → c.setRules c.rules = .ok c) := by
  obtain ⟨prepared, rules, concluded, outputs, hprepare, hactivate, hconclude, hsettle, rfl⟩ :=
    leads_evaluateRules.mp ⟨notices, h⟩
  refine ⟨hactivate, fun name o j ho hj hcell hheights => ?_,
    fun b given given' hset hperm hheights => ?_, fun hdistinct => ?_⟩
  · exact height?_of_run hprepare hconclude hsettle ho hj hcell hheights
  · obtain ⟨hvalid, rfl⟩ := setRules_eq_ok.mp hset
    obtain ⟨rules', hactivate', hbare⟩ := mapM_activate_perm hperm hactivate
    have hconclude' := foldlM_conclude_of_bare hprepare hbare hheights hconclude
    obtain ⟨more, hrun⟩ := (leads_evaluateRules
      (c := { b with rules := firstOfEach Rule.equivalent given' })).mpr
      ⟨prepared, rules', concluded, outputs, hprepare, hactivate', hconclude', hsettle, rfl⟩
    exact ⟨_, _, more,
      setRules_eq_ok.mpr ⟨fun r hr => hvalid r (hperm.mem_iff.mpr hr), rfl⟩, hrun, rfl⟩
  · have hfresh : RulesDistinct ([] ++ c.rules) := hdistinct
    have hkept : firstOfEach Rule.equivalent c.rules = c.rules := foldl_withRule_of_distinct hfresh
    exact setRules_eq_ok.mpr ⟨valid_of_run hprepare hactivate hconclude, by rw [hkept]⟩

/-- The speed of a fan, with two terms that overlap. -/
def fanSpeed : OutputVariable Rat where
  name := "speed"
  terms := [⟨"slow", [⟨0, 1⟩, ⟨1, 1⟩], 1, [1, 1, 1, 1]⟩,
    ⟨"fast", [⟨1, 1⟩, ⟨3, 1⟩], 1, [1, 1, 1, 1]⟩]
  crisp := 0
  defaultValue := 0
  resolution := 4
  method := .gravity
  grid := some ⟨[0, 1, 2, 3], [0, 0, 0, 0]⟩

/-- A controller of a fan. -/
def fan (accumulation : Accumulation) : Controller Rat where
  config := .standard
  name := "fan"
  inputs := [⟨"temperature", [⟨"cold", [⟨0, 1⟩], 3 / 4, [0]⟩, ⟨"hot", [⟨1, 1⟩], 1 / 2, [0]⟩]⟩]
  outputs := [fanSpeed]
  rules := [.ofCondition (.is ⟨"temperature", 1, false⟩) "speed" 1 1,
    .ofCondition (.is ⟨"temperature", 0, false⟩) "speed" 0 1]
  operators := ⟨.minMax, .minimum, accumulation⟩

theorem evaluateRules_closedForm_fan :
    (evaluateRules (fan .maximum)).state.height? "speed" 1 = some (3 / 4) ∧
    (evaluateRules (fan .boundedSum)).state.height? "speed" 1 = some 1 ∧
    ∃ d d' more, (fan .maximum).setRules (fan .maximum).rules.reverse = .ok d ∧
      evaluateRules d = ⟨d', more, .ok ()⟩ ∧
      d'.outputs = (evaluateRules (fan .maximum)).state.outputs := by
  have hrun (accumulation : Accumulation) : evaluateRules (fan accumulation) =
      ⟨(evaluateRules (fan accumulation)).state, (evaluateRules (fan accumulation)).notices,
        .ok ()⟩ := by
    have hanswer : (evaluateRules (fan accumulation)).answer = .ok () := by
      cases accumulation <;> decide +kernel
    rw [← hanswer]
  obtain ⟨-, hcells, hpermuted, hself⟩ := evaluateRules_closedForm (hrun .maximum)
  obtain ⟨-, hsums, -, -⟩ := evaluateRules_closedForm (hrun .boundedSum)
  refine ⟨?_, ?_, ?_⟩
  · rw [hcells "speed" fanSpeed 1 rfl (by decide) (by decide) (.inl rfl)]
    decide +kernel
  · rw [hsums "speed" fanSpeed 1 rfl (by decide) (by decide) (.inr (by decide +kernel))]
    decide +kernel
  · exact hpermuted _ _ _ (hself (by unfold RulesDistinct; decide +kernel))
      (List.reverse_perm _).symm fun _ _ _ => .inl rfl

end Controller

end FuzzyInference
