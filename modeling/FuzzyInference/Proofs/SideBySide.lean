import FuzzyInference.Proofs.Accumulation
import FuzzyInference.Proofs.Freshness

/-!
# Variables and rules beside others

Further variables and rules behind those of a controller do not change what is inferred for its own
outputs, as long as the further rules conclude on other outputs.
-/

namespace FuzzyInference

theorem mapM_append_eq_ok {ε β γ : Type} {f : β → Except ε γ} {xs ys : List β} {zs : List γ} :
    (xs ++ ys).mapM f = .ok zs ↔
      ∃ us vs, xs.mapM f = .ok us ∧ ys.mapM f = .ok vs ∧ zs = us ++ vs := by
  rw [List.mapM_append, bind_eq_ok]
  constructor
  · rintro ⟨us, hus, h⟩
    obtain ⟨vs, hvs, hzs⟩ := bind_eq_ok.mp h
    exact ⟨us, vs, hus, hvs, (Except.ok.inj hzs).symm⟩
  · rintro ⟨us, vs, hus, hvs, rfl⟩
    exact ⟨us, hus, bind_eq_ok.mpr ⟨vs, hvs, rfl⟩⟩

theorem foldlM_append_eq_ok {ε β σ : Type} {f : σ → β → Except ε σ} {xs ys : List β} {s u : σ} :
    (xs ++ ys).foldlM f s = .ok u ↔ ∃ t, xs.foldlM f s = .ok t ∧ ys.foldlM f t = .ok u := by
  rw [List.foldlM_append, bind_eq_ok]

namespace Action

variable {ρ : Type} {found : ρ → Bool} {missing : Fault} {f : ρ → Except Fault ρ}
  {xs ys more zs : List ρ}

-- A change of the first item that is found is the same with further items behind it.
theorem changeFirst_append (h : changeFirst found missing f xs = .ok ys) (more : List ρ) :
    changeFirst found missing f (xs ++ more) = .ok (ys ++ more) := by
  induction xs generalizing ys with
  | nil => cases h
  | cons x xs ih =>
    rw [changeFirst] at h
    rw [List.cons_append, changeFirst]
    by_cases hx : found x = true
    · rw [if_pos hx] at h ⊢
      obtain ⟨y, hy, rfl⟩ := map_eq_ok.mp h
      exact map_eq_ok.mpr ⟨y, hy, rfl⟩
    · rw [if_neg hx] at h ⊢
      obtain ⟨zs, hzs, rfl⟩ := map_eq_ok.mp h
      exact map_eq_ok.mpr ⟨zs ++ more, ih hzs, rfl⟩

theorem changeFirst_behind (hnone : ∀ x ∈ xs, found x = false)
    (h : changeFirst found missing f (xs ++ more) = .ok zs) : ∃ more', zs = xs ++ more' := by
  induction xs generalizing zs with
  | nil => exact ⟨zs, rfl⟩
  | cons x xs ih =>
    obtain ⟨hx, hxs⟩ := List.forall_mem_cons.mp hnone
    rw [List.cons_append, changeFirst, hx, if_neg Bool.false_ne_true] at h
    obtain ⟨rest, hrest, rfl⟩ := map_eq_ok.mp h
    obtain ⟨more', rfl⟩ := ih hxs hrest
    exact ⟨more', rfl⟩

end Action

variable {α : Type} [Scalar α] {inputs others : List (Variable α)}

/-! ## Conditions -/

-- A condition that has a strength only refers to inputs that are there.
theorem Condition.strength_append {pair : NormPair} {condition : Condition} {s : α}
    (h : condition.strength inputs pair = .ok s) (others : List (Variable α)) :
    condition.strength (inputs ++ others) pair = .ok s := by
  induction condition generalizing s with
  | is leaf =>
    change degree inputs leaf = .ok s at h
    show degree (inputs ++ others) leaf = .ok s
    unfold degree at h ⊢
    cases hv : inputs.find? (·.name == leaf.name) with
    | none =>
      rw [hv] at h
      cases h
    | some v =>
      rw [hv] at h
      rw [List.find?_append, hv]
      exact h
  | and l r ihl ihr =>
    obtain ⟨a, ha, h⟩ := bind_eq_ok.mp h
    obtain ⟨b, hb, h⟩ := bind_eq_ok.mp h
    exact bind_eq_ok.mpr ⟨a, ihl ha, bind_eq_ok.mpr ⟨b, ihr hb, h⟩⟩
  | or l r ihl ihr =>
    obtain ⟨a, ha, h⟩ := bind_eq_ok.mp h
    obtain ⟨b, hb, h⟩ := bind_eq_ok.mp h
    exact bind_eq_ok.mpr ⟨a, ihl ha, bind_eq_ok.mpr ⟨b, ihr hb, h⟩⟩

/-! ## Conclusions -/

namespace Rule

variable {operators : Operators} {rules rules' : List (Rule α)}
  {outputs outputs' more all : List (OutputVariable α)} {r r' : Rule α}

theorem activate_append {pair : NormPair} (h : r.activate inputs pair = .ok r')
    (others : List (Variable α)) : r.activate (inputs ++ others) pair = .ok r' := by
  obtain ⟨s, hs, rfl⟩ := map_eq_ok.mp h
  exact map_eq_ok.mpr ⟨s, Condition.strength_append hs others, rfl⟩

theorem mapM_activate_append {pair : NormPair}
    (h : rules.mapM (activate inputs pair) = .ok rules') (others : List (Variable α)) :
    rules.mapM (activate (inputs ++ others) pair) = .ok rules' := by
  rw [mapM_eq_ok] at h ⊢
  exact h.imp fun _ _ hr => activate_append hr others

theorem foldlM_conclude_append (h : rules.foldlM (conclude operators) outputs = .ok outputs')
    (more : List (OutputVariable α)) :
    rules.foldlM (conclude operators) (outputs ++ more) = .ok (outputs' ++ more) := by
  induction rules generalizing outputs with
  | nil =>
    obtain rfl := Except.ok.inj h
    rfl
  | cons r rules ih =>
    obtain ⟨outputs₁, hfirst, hrest⟩ := bind_eq_ok.mp h
    exact bind_eq_ok.mpr ⟨outputs₁ ++ more, Action.changeFirst_append hfirst more, ih hrest⟩

theorem names_of_foldlM_conclude (h : rules.foldlM (conclude operators) outputs = .ok outputs') :
    outputs'.map (·.name) = outputs.map (·.name) := by
  induction rules generalizing outputs with
  | nil => rw [Except.ok.inj h]
  | cons r rules ih =>
    obtain ⟨outputs₁, hfirst, hrest⟩ := bind_eq_ok.mp h
    have hsame : outputs₁.map (·.name) = outputs.map (·.name) :=
      Action.map_of_changeFirst (fun _ _ _ => name_of_accumulate) hfirst
    rw [ih hrest, hsame]

-- Rules that conclude on other outputs leave these alone.
theorem foldlM_conclude_behind
    (hother : ∀ r ∈ rules, r.conclusion.name ∉ outputs.map (·.name))
    (h : rules.foldlM (conclude operators) (outputs ++ more) = .ok all) :
    ∃ more', all = outputs ++ more' := by
  induction rules generalizing more with
  | nil => exact ⟨more, (Except.ok.inj h).symm⟩
  | cons r rules ih =>
    obtain ⟨hr, hrules⟩ := List.forall_mem_cons.mp hother
    obtain ⟨outputs₁, hfirst, hrest⟩ := bind_eq_ok.mp h
    have hnone : ∀ o ∈ outputs, (o.name == r.conclusion.name) = false := by
      intro o ho
      exact beq_eq_false_iff_ne.mpr fun hname => hr (hname ▸ List.mem_map.mpr ⟨o, ho, rfl⟩)
    obtain ⟨more', rfl⟩ := Action.changeFirst_behind hnone hfirst
    exact ih hrules hrest

end Rule

/-! ## Controllers -/

namespace Controller

variable {c c' d d' : Controller α} {values : List (String × α)}

/-- The controller `d` has what `c` has, and behind that further variables and rules; the further
rules conclude on other outputs. -/
structure Beside (c d : Controller α) : Prop where
  inputs : c.inputs <+: d.inputs
  outputs : c.outputs <+: d.outputs
  rules : ∃ rules, d.rules = c.rules ++ rules ∧
    ∀ r ∈ rules, r.conclusion.name ∉ c.outputs.map (·.name)
  operators : d.operators = c.operators

theorem name_of_prepare {o o' : OutputVariable α} (h : prepare o = .ok o') : o'.name = o.name :=
  congrArg (·.name) (OutputVariable.fresh_of_prepare h).1

/-- Inferring all rules gives the outputs of `c` what inferring its own rules gives them. -/
theorem Beside.evaluateRules (h : c.Beside d) (hc : evaluateRules.Leads c c' ())
    (hd : evaluateRules.Leads d d' ()) : c'.outputs <+: d'.outputs := by
  obtain ⟨inputs, hinputs⟩ := h.inputs
  obtain ⟨outputs, houtputs⟩ := h.outputs
  obtain ⟨rules, hrules, hother⟩ := h.rules
  obtain ⟨prepared, active, concluded, settled, hprepare, hactivate, hconclude, hsettle, rfl⟩ :=
    leads_evaluateRules.mp hc
  obtain ⟨prepared', active', concluded', settled', hprepare', hactivate', hconclude', hsettle',
    rfl⟩ := leads_evaluateRules.mp hd
  rw [← houtputs, mapM_append_eq_ok] at hprepare'
  rw [hrules, ← hinputs, h.operators, mapM_append_eq_ok] at hactivate'
  obtain ⟨own, furtherOutputs, hown, -, rfl⟩ := hprepare'
  obtain ⟨ownRules, furtherRules, hownRules, hfurther, rfl⟩ := hactivate'
  obtain rfl : prepared = own := Except.ok.inj (hprepare.symm.trans hown)
  obtain rfl : active = ownRules :=
    Except.ok.inj ((Rule.mapM_activate_append hactivate inputs).symm.trans hownRules)
  -- the own rules conclude on the own outputs, the further ones behind them
  rw [h.operators, foldlM_append_eq_ok] at hconclude'
  obtain ⟨between, hbetween, hconclude'⟩ := hconclude'
  obtain rfl : concluded ++ furtherOutputs = between :=
    Except.ok.inj ((Rule.foldlM_conclude_append hconclude furtherOutputs).symm.trans hbetween)
  have hnames : concluded.map (·.name) = c.outputs.map (·.name) :=
    (Rule.names_of_foldlM_conclude hconclude).trans
      (Action.map_eq_of_forall₂ (R := fun o p => prepare o = .ok p)
        (fun _ _ => name_of_prepare) (mapM_eq_ok.mp hprepare))
  have hconclusions : ∀ r ∈ furtherRules, r.conclusion.name ∉ concluded.map (·.name) := by
    intro r hr
    obtain ⟨s, hs, hactive⟩ := mem_of_mapM_eq_ok hfurther hr
    obtain ⟨strength, -, rfl⟩ := map_eq_ok.mp hactive
    rw [hnames]
    exact hother s hs
  obtain ⟨more, rfl⟩ := Rule.foldlM_conclude_behind hconclusions hconclude'
  obtain ⟨ownSettled, rest, hsettled, -, rfl⟩ := mapM_append_eq_ok.mp hsettle'
  obtain rfl : settled = ownSettled := Except.ok.inj (hsettle.symm.trans hsettled)
  exact List.prefix_append settled rest

theorem Beside.take {p : String × Reading α} (h : c.Beside d) (hc : (take p).Leads c c' ())
    (hd : (take p).Leads d d' ()) : c'.Beside d' := by
  obtain ⟨inputs, hchange, rfl⟩ := leads_take.mp hc
  obtain ⟨inputs', hchange', rfl⟩ := leads_take.mp hd
  obtain ⟨others, hothers⟩ := h.inputs
  rw [← hothers, Action.changeFirst_append hchange others] at hchange'
  exact ⟨⟨others, Except.ok.inj hchange'⟩, h.outputs, h.rules, h.operators⟩

theorem Beside.run {readings : List (String × Reading α)} (h : c.Beside d)
    (hc : (Action.forEach readings Controller.take).Leads c c' ())
    (hd : (Action.forEach readings Controller.take).Leads d d' ()) : c'.Beside d' := by
  induction readings generalizing c d with
  | nil =>
    obtain rfl := Action.leads_forEach_nil.mp hc
    obtain rfl := Action.leads_forEach_nil.mp hd
    exact h
  | cons p readings ih =>
    obtain ⟨c₁, hfirst, hrest⟩ := Action.leads_forEach_cons.mp hc
    obtain ⟨d₁, hfirst', hrest'⟩ := Action.leads_forEach_cons.mp hd
    exact ih (h.take hfirst hfirst') hrest hrest'

/-- An evaluation of both with the same values gives the outputs of `c` the same grids and the same
crisp values. -/
theorem Beside.evaluate {division : Division} {crisp crisp' : List (String × α)} (h : c.Beside d)
    (hc : (evaluate division values).Leads c c' crisp)
    (hd : (Controller.evaluate division values).Leads d d' crisp') :
    c'.outputs <+: d'.outputs := by
  obtain ⟨c₁, hread, hrules, -⟩ := leads_evaluate.mp hc
  obtain ⟨d₁, hread', hrules', -⟩ := leads_evaluate.mp hd
  exact (h.run hread hread').evaluateRules hrules hrules'

end Controller

end FuzzyInference
