import FuzzyInference.Proofs.Grids
import FuzzyInference.Proofs.Readings

/-!
# What an evaluation sees

An evaluation reads the degrees of the inputs, and overwrites the levels of the rules, the heights
of the grids and the crisp values.  So controllers that differ in these alone are evaluated alike.
-/

namespace FuzzyInference

variable {α : Type} [Scalar α] {operators : Operators}

theorem mapM_map_result {ε β γ δ : Type} (f : β → Except ε γ) (g : γ → δ) (items : List β) :
    items.mapM (fun b => (f b).map g) = (items.mapM f).map (List.map g) := by
  induction items with
  | nil => rfl
  | cons b items ih =>
    rw [List.mapM_cons, List.mapM_cons, ih]
    cases f b with
    | error e => rfl
    | ok c =>
      cases items.mapM f with
      | error e => rfl
      | ok cs => rfl

-- What holds of all items and depends on `g` alone holds of all items with the same `g`.
theorem forall_of_map_eq {ρ κ : Type} {g : ρ → κ} {P : ρ → Prop}
    (hP : ∀ x y, g x = g y → P x → P y) {xs ys : List ρ} (h : ys.map g = xs.map g)
    (hxs : ∀ x ∈ xs, P x) : ∀ y ∈ ys, P y := by
  intro y hy
  have hmem : g y ∈ xs.map g := h ▸ List.mem_map_of_mem hy
  obtain ⟨x, hx, hsame⟩ := List.mem_map.mp hmem
  exact hP x y hsame (hxs x hx)

/-! ## Rules -/

/-- The rule before it is activated. -/
def Rule.fresh (r : Rule α) : Rule α := { r with level := 0 }

theorem Rule.mapM_activate_fresh (inputs : List (Variable α)) (pair : NormPair)
    (rules : List (Rule α)) :
    (rules.map fresh).mapM (activate inputs pair) = rules.mapM (activate inputs pair) := by
  rw [List.mapM_map]
  rfl

theorem Rule.fresh_of_activate {inputs : List (Variable α)} {pair : NormPair} {r r' : Rule α}
    (h : r.activate inputs pair = .ok r') : r'.fresh = r.fresh := by
  obtain ⟨strength, -, rfl⟩ := map_eq_ok.mp h
  rfl

-- Conditions see the inputs only through their names.
theorem Condition.strength_congr {inputs inputs' : List (Variable α)} {pair : NormPair}
    (h : ∀ name, inputs'.find? (·.name == name) = inputs.find? (·.name == name))
    (condition : Condition) :
    condition.strength inputs' pair = condition.strength inputs pair := by
  induction condition with
  | is leaf =>
    show degree inputs' leaf = degree inputs leaf
    unfold degree
    rw [h leaf.name]
  | and l r ihl ihr =>
    unfold strength
    rw [ihl, ihr]
  | or l r ihl ihr =>
    unfold strength
    rw [ihl, ihr]

theorem Rule.activate_congr {inputs inputs' : List (Variable α)}
    (h : ∀ name, inputs'.find? (·.name == name) = inputs.find? (·.name == name))
    (pair : NormPair) : activate inputs' pair = activate inputs pair := by
  funext r
  unfold activate
  rw [Condition.strength_congr h]

/-! ## Outputs -/

namespace OutputVariable

/-- The output before its first evaluation: its grid has no heights. -/
def fresh (o : OutputVariable α) : OutputVariable α :=
  { o with crisp := 0, grid := o.grid.map fun grid => { grid with ys := grid.ys.map fun _ => 0 } }

/-- The output without its crisp value. -/
def blank (o : OutputVariable α) : OutputVariable α := { o with crisp := 0 }

/-- The grid has a height for each of its cells. -/
def Gridded (o : OutputVariable α) : Prop :=
  ∀ grid, o.grid = some grid → grid.ys.length = o.resolution

theorem gridded_discretize {o o' : OutputVariable α} (h : o.discretize = .ok o') : o'.Gridded := by
  obtain ⟨-, domains, terms, -, -, rfl⟩ := discretize_eq_ok.mp h
  intro grid hgrid
  rw [← Option.some.inj hgrid, List.length_replicate]

theorem gridded_fresh {o : OutputVariable α} : o.fresh.Gridded ↔ o.Gridded := by
  unfold Gridded fresh
  cases o.grid with
  | none => simp
  | some grid => simp

/-- The grid has a height for each of its cells, and every term a sample. -/
def Full (o : OutputVariable α) : Prop :=
  o.Gridded ∧ ∀ t ∈ o.terms, t.samples.length = o.resolution

theorem full_fresh {o : OutputVariable α} : o.fresh.Full ↔ o.Full :=
  and_congr_left' gridded_fresh

theorem full_of_fresh {outputs outputs' : List (OutputVariable α)}
    (h : outputs'.map fresh = outputs.map fresh) (hfull : ∀ o ∈ outputs, o.Full) :
    ∀ o ∈ outputs', o.Full :=
  forall_of_map_eq (fun _ _ hsame ho => full_fresh.mp (hsame ▸ full_fresh.mpr ho)) h hfull

omit [Scalar α] in
theorem length_samples_of_isDiscretized {o : OutputVariable α} (h : o.isDiscretized = true) :
    ∀ t ∈ o.terms, t.samples.length = o.resolution := fun t ht =>
  beq_iff_eq.mp (List.all_eq_true.mp (Bool.and_eq_true_iff.mp h).2 t ht)

theorem isDiscretized_fresh (o : OutputVariable α) : o.fresh.isDiscretized = o.isDiscretized := by
  unfold isDiscretized fresh
  cases o.grid with
  | none => rfl
  | some grid => rfl

theorem reset_fresh (o : OutputVariable α) : o.fresh.reset = o.reset.map blank := by
  unfold reset grid? fresh
  cases o.grid with
  | none => rfl
  | some grid =>
    simp only [Option.map_some, Except.map, List.map_map]
    rfl

theorem prepare_fresh (o : OutputVariable α) :
    Controller.prepare o.fresh = (Controller.prepare o).map blank := by
  unfold Controller.prepare
  rw [isDiscretized_fresh, reset_fresh]
  by_cases hready : o.isDiscretized = true
  · rw [if_pos hready, if_pos hready]
  · rw [if_neg hready, if_neg hready]
    rfl

theorem fresh_of_prepare {o o' : OutputVariable α} (h : Controller.prepare o = .ok o') :
    o'.fresh = o.fresh ∧ (o.Gridded → o'.Full) := by
  obtain ⟨hready, grid, hgrid, rfl⟩ := Controller.prepare_eq_ok.mp h
  constructor
  · unfold fresh
    rw [hgrid]
    simp only [Option.map_some, List.map_map]
    rfl
  · intro hgridded
    constructor
    · intro cleared hcleared
      rw [← Option.some.inj hcleared, List.length_map]
      exact hgridded grid hgrid
    · exact fun t ht => length_samples_of_isDiscretized hready t ht

theorem fresh_of_settle {o o' : OutputVariable α} (h : o.settle = .ok o') : o'.fresh = o.fresh := by
  obtain ⟨grid, -, rfl⟩ := map_eq_ok.mp h
  rfl

end OutputVariable

open OutputVariable (blank)

/-! ## Accumulation -/

namespace Action

variable {ρ τ : Type} {found : ρ → Bool} {missing : Fault} {f : ρ → Except Fault ρ} {xs ys : List ρ}

-- A change of items that is also one of what `g` makes of them.
theorem changeFirst_map {found' : τ → Bool} {f' : τ → Except Fault τ} {g : ρ → τ}
    (hfound : ∀ x, found' (g x) = found x) (hf : ∀ x, f' (g x) = (f x).map g) (xs : List ρ) :
    changeFirst found' missing f' (xs.map g) =
      (changeFirst found missing f xs).map (List.map g) := by
  induction xs with
  | nil => rfl
  | cons x xs ih =>
    rw [List.map_cons, changeFirst, changeFirst, hfound, hf, ih]
    by_cases hx : found x = true
    · rw [if_pos hx, if_pos hx]
      cases f x with
      | error e => rfl
      | ok y => rfl
    · rw [if_neg hx, if_neg hx]
      cases changeFirst found missing f xs with
      | error e => rfl
      | ok ys => rfl

theorem map_of_changeFirst {κ : Type} {g : ρ → κ} (hg : ∀ x ∈ xs, ∀ y, f x = .ok y → g y = g x)
    (h : changeFirst found missing f xs = .ok ys) : ys.map g = xs.map g := by
  induction xs generalizing ys with
  | nil => cases h
  | cons x xs ih =>
    obtain ⟨hx, hrest⟩ := List.forall_mem_cons.mp hg
    rw [changeFirst] at h
    by_cases hfound : found x = true
    · rw [if_pos hfound] at h
      obtain ⟨y, hy, rfl⟩ := map_eq_ok.mp h
      rw [List.map_cons, List.map_cons, hx y hy]
    · rw [if_neg hfound] at h
      obtain ⟨zs, hzs, rfl⟩ := map_eq_ok.mp h
      rw [List.map_cons, List.map_cons, ih hrest hzs]

end Action

namespace Rule

theorem accumulate_blank (r : Rule α) (o : OutputVariable α) :
    r.accumulate operators o.blank = (r.accumulate operators o).map blank := by
  have hstart : r.start o.blank = r.start o := rfl
  have hstop : r.stop o.blank = r.stop o := rfl
  have hterm : o.blank.term r.conclusion.term = o.term r.conclusion.term := rfl
  have hgrid : o.blank.grid? = o.grid? := rfl
  unfold accumulate
  rw [hstart, hstop, hterm, hgrid]
  cases r.start o with
  | error f => rfl
  | ok first =>
    cases r.stop o with
    | error f => rfl
    | ok last =>
      cases o.term r.conclusion.term with
      | error f => rfl
      | ok t =>
        cases o.grid? with
        | error f => rfl
        | ok grid => rfl

theorem fresh_of_accumulate {r : Rule α} {o o' : OutputVariable α} (ho : o.Full)
    (h : r.accumulate operators o = .ok o') : o'.fresh = o.fresh := by
  obtain ⟨first, last, t, grid, -, -, ht, hgrid, rfl⟩ := accumulate_eq_ok.mp h
  have hsamples : t.samples.length = grid.ys.length := by
    rw [ho.1 grid hgrid]
    exact ho.2 t (List.mem_of_getElem? (Variable.term_eq_ok.mp ht).2)
  unfold OutputVariable.fresh
  rw [hgrid, Option.map_some, Option.map_some]
  congr 3
  -- the heights are as many as before
  rw [List.map_const', List.map_const']
  congr 1
  simp [Grid.overlay, hsamples]

theorem conclude_blank (r : Rule α) (outputs : List (OutputVariable α)) :
    r.conclude operators (outputs.map blank) =
      (r.conclude operators outputs).map (List.map blank) :=
  Action.changeFirst_map (fun _ => rfl) (accumulate_blank r) outputs

theorem foldlM_conclude_blank (rules : List (Rule α)) (outputs : List (OutputVariable α)) :
    rules.foldlM (conclude operators) (outputs.map blank) =
      (rules.foldlM (conclude operators) outputs).map (List.map blank) := by
  induction rules generalizing outputs with
  | nil => rfl
  | cons r rules ih =>
    rw [List.foldlM_cons, List.foldlM_cons, conclude_blank]
    cases r.conclude operators outputs with
    | error f => rfl
    | ok outputs₁ => exact ih outputs₁

theorem fresh_of_conclude {r : Rule α} {outputs outputs' : List (OutputVariable α)}
    (hfull : ∀ o ∈ outputs, o.Full) (h : r.conclude operators outputs = .ok outputs') :
    outputs'.map OutputVariable.fresh = outputs.map OutputVariable.fresh :=
  Action.map_of_changeFirst (fun o ho _ => fresh_of_accumulate (hfull o ho)) h

theorem fresh_of_foldlM_conclude {rules : List (Rule α)}
    {outputs outputs' : List (OutputVariable α)} (hfull : ∀ o ∈ outputs, o.Full)
    (h : rules.foldlM (conclude operators) outputs = .ok outputs') :
    outputs'.map OutputVariable.fresh = outputs.map OutputVariable.fresh := by
  induction rules generalizing outputs with
  | nil => rw [Except.ok.inj h]
  | cons r rules ih =>
    obtain ⟨outputs₁, hfirst, hrest⟩ := bind_eq_ok.mp h
    have hsame := fresh_of_conclude hfull hfirst
    rw [ih (OutputVariable.full_of_fresh hsame hfull) hrest, hsame]

end Rule

/-! ## Evaluations -/

namespace Controller

variable {c d c' : Controller α}

-- Preparing outputs that differ in crisp values and heights leaves them different in crisp values.
theorem exists_mapM_prepare {outputs outputs' prepared : List (OutputVariable α)}
    (h : outputs'.map OutputVariable.fresh = outputs.map OutputVariable.fresh)
    (hprepare : outputs.mapM prepare = .ok prepared) :
    ∃ prepared', outputs'.mapM prepare = .ok prepared' ∧
      prepared'.map blank = prepared.map blank := by
  have hblank (os : List (OutputVariable α)) :
      (os.map OutputVariable.fresh).mapM prepare = (os.mapM prepare).map (List.map blank) := by
    rw [List.mapM_map, ← mapM_map_result]
    exact congrArg (os.mapM ·) (funext OutputVariable.prepare_fresh)
  apply map_eq_ok.mp
  rw [← hblank, h, hblank, hprepare]
  rfl

/-- Controllers with the same operators and the same inputs, whose rules and outputs are the same up
to levels, heights and crisp values, end up with the same rules and outputs. -/
theorem evaluateRules_congr (hoperators : d.operators = c.operators)
    (hinputs : ∀ name, d.input? name = c.input? name)
    (hrules : d.rules.map Rule.fresh = c.rules.map Rule.fresh)
    (houtputs : d.outputs.map OutputVariable.fresh = c.outputs.map OutputVariable.fresh)
    (h : evaluateRules.Leads c c' ()) :
    evaluateRules.Leads d { d with rules := c'.rules, outputs := c'.outputs } () := by
  obtain ⟨prepared, rules, concluded, outputs, hprepare, hactivate, hconclude, hsettle, rfl⟩ :=
    leads_evaluateRules.mp h
  have hsettles (os : List (OutputVariable α)) :
      (os.map blank).mapM OutputVariable.settle = os.mapM OutputVariable.settle := by
    rw [List.mapM_map]
    rfl
  -- the outputs differ in their crisp values only while the rules conclude
  obtain ⟨prepared', hprepare', hsame⟩ := exists_mapM_prepare houtputs hprepare
  have hconclude' : (rules.foldlM (Rule.conclude c.operators) prepared').map (List.map blank) =
      .ok (concluded.map blank) := by
    rw [← Rule.foldlM_conclude_blank, hsame, Rule.foldlM_conclude_blank, hconclude]
    rfl
  obtain ⟨concluded', hconclude', hsame'⟩ := map_eq_ok.mp hconclude'
  refine leads_evaluateRules.mpr
    ⟨prepared', rules, concluded', outputs, hprepare', ?_, ?_, ?_, rfl⟩
  · rw [hoperators, Rule.activate_congr hinputs, ← Rule.mapM_activate_fresh, hrules,
      Rule.mapM_activate_fresh, hactivate]
  · rw [hoperators, hconclude']
  · rw [← hsettles, hsame', hsettles, hsettle]

/-- What an evaluation leaves alone. -/
theorem fresh_of_evaluateRules (hgridded : ∀ o ∈ c.outputs, o.Gridded)
    (h : evaluateRules.Leads c c' ()) :
    c'.inputs = c.inputs ∧ c'.operators = c.operators ∧
      c'.rules.map Rule.fresh = c.rules.map Rule.fresh ∧
      c'.outputs.map OutputVariable.fresh = c.outputs.map OutputVariable.fresh := by
  obtain ⟨prepared, rules, concluded, outputs, hprepare, hactivate, hconclude, hsettle, rfl⟩ :=
    leads_evaluateRules.mp h
  have hprepared : prepared.map OutputVariable.fresh = c.outputs.map OutputVariable.fresh :=
    Action.map_eq_of_forall₂ (R := fun o p => prepare o = .ok p)
      (fun _ _ ho => (OutputVariable.fresh_of_prepare ho).1) (mapM_eq_ok.mp hprepare)
  have hfull : ∀ o ∈ prepared, o.Full := by
    intro o ho
    obtain ⟨p, hp, hpo⟩ := mem_of_mapM_eq_ok hprepare ho
    exact (OutputVariable.fresh_of_prepare hpo).2 (hgridded p hp)
  have hsettled : outputs.map OutputVariable.fresh = concluded.map OutputVariable.fresh :=
    Action.map_eq_of_forall₂ (fun _ _ => OutputVariable.fresh_of_settle) (mapM_eq_ok.mp hsettle)
  refine ⟨rfl, rfl, ?_, ?_⟩
  · exact Action.map_eq_of_forall₂ (fun _ _ => Rule.fresh_of_activate) (mapM_eq_ok.mp hactivate)
  · rw [hsettled, Rule.fresh_of_foldlM_conclude hfull hconclude, hprepared]

end Controller

end FuzzyInference
