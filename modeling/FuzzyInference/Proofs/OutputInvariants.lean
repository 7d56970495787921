import FuzzyInference.Proofs.Outline
import FuzzyInference.Proofs.Reachable

/-!
# Invariants of output variables

What new output variables have, and no operation, setting or evaluation takes from them, all output
variables of a reachable controller have.
-/

namespace FuzzyInference

open List (Forall₂)

variable {α : Type}

theorem forall_of_forall₂ {ρ : Type} {P Q : ρ → Prop} {xs ys : List ρ}
    (h : Forall₂ (fun x y => P x → Q y) xs ys) (hxs : ∀ x ∈ xs, P x) : ∀ y ∈ ys, Q y := by
  induction h with
  | nil => exact fun _ hy => absurd hy List.not_mem_nil
  | cons hxy _ ih =>
    obtain ⟨hx, hrest⟩ := List.forall_mem_cons.mp hxs
    exact List.forall_mem_cons.mpr ⟨hxy hx, ih hrest⟩

/-! ## Controllers whose outputs keep a property -/

/-- If all outputs of `c` have the property, then so do those of `c'`. -/
def Controller.KeepsAll (P : OutputVariable α → Prop) (c c' : Controller α) : Prop :=
  (∀ o ∈ c.outputs, P o) → ∀ o ∈ c'.outputs, P o

namespace Controller

variable {P : OutputVariable α → Prop}

theorem KeepsAll.refl (c : Controller α) : c.KeepsAll P c := id

theorem KeepsAll.trans {c d e : Controller α} (h : c.KeepsAll P d) (h' : d.KeepsAll P e) :
    c.KeepsAll P e := h' ∘ h

theorem KeepsAll.of_eq {c c' : Controller α} (h : c'.outputs = c.outputs) : c.KeepsAll P c' := by
  intro hc
  rwa [h]

theorem keepsAll_change {f : Controller α → Except Fault (Controller α)}
    (h : ∀ c c', f c = .ok c' → c.KeepsAll P c') : (Action.change f).Moves (KeepsAll P) :=
  Action.moves_change KeepsAll.refl h

theorem keepsAll_onEach {act : Action (OutputVariable α) Unit}
    (h : act.Moves fun o o' => P o → P o') :
    (Action.within Controller.outputs (fun outputs c => { c with outputs })
      (Action.onEach act)).Moves (KeepsAll P) :=
  Action.moves_within (Action.moves_onEach (fun _ => id) h) fun _ _ => forall_of_forall₂

theorem keepsAll_onOutput {β : Type} (name : String) (missing : Fault)
    {act : Action (OutputVariable α) β} (h : act.Moves fun o o' => P o → P o') :
    (onOutput name missing act).Moves (KeepsAll P) :=
  Action.moves_within (Action.moves_onFirst (fun _ => id) h) fun _ _ => forall_of_forall₂

theorem keepsAll_onInput {β : Type} (name : String) (missing : Fault)
    (act : Action (Variable α) β) : (onInput name missing act).Moves (KeepsAll P) :=
  fun c => .of_eq (c := c) rfl

theorem keepsAll_addInput {c c' : Controller α} {v : Variable α} (h : c.addInput v = .ok c') :
    c.KeepsAll P c' := by
  obtain ⟨-, rfl⟩ := addInput_eq_ok.mp h
  exact .of_eq rfl

theorem keepsAll_addOutput {c c' : Controller α} {o : OutputVariable α} (ho : P o)
    (h : c.addOutput o = .ok c') : c.KeepsAll P c' := by
  obtain ⟨-, rfl⟩ := addOutput_eq_ok.mp h
  exact fun hc => List.forall_mem_append.mpr ⟨hc, List.forall_mem_singleton.mpr ho⟩

end Controller

variable [Scalar α]

/-- The property holds of new output variables, and operations on them, settings of the ways to
defuzzify and evaluations keep it. -/
structure OutputVariable.Invariant (P : OutputVariable α → Prop) : Prop where
  created : ∀ {name terms resolution method defaultValue o},
    create name terms resolution method defaultValue = .ok o → P o
  operation : ∀ operation : OutputOperation α, operation.run.Moves fun o o' => P o → P o'
  setting : ∀ {o o' : OutputVariable α}, o'.toVariable = o.toVariable →
    o'.resolution = o.resolution → o'.grid = o.grid → P o → P o'
  evaluation : (Controller.evaluateRules (α := α)).Moves (Controller.KeepsAll P)

namespace OutputVariable.Invariant

open Controller (KeepsAll)

variable {P : OutputVariable α → Prop}

/-! ## Reading -/

theorem keepsAll_addRule (r : Rule α) : (Controller.addRule r).Moves (KeepsAll P) := by
  intro c
  refine .of_eq ?_
  unfold Controller.addRule
  split
  · rfl
  · split
    · rfl
    · rfl

omit [Scalar α] in
theorem keepsAll_changeOutput (c : Controller α) (name : String)
    {f : OutputVariable α → OutputVariable α} (hf : ∀ o, P o → P (f o)) :
    c.KeepsAll P (Fcl.changeOutput c name f) := by
  have hchange : (Action.change fun o => .ok (f o)).Moves fun o o' => P o → P o' := by
    refine Action.moves_change (fun _ => id) ?_
    rintro o _ ⟨⟩
    exact hf o
  exact Controller.keepsAll_onOutput name _ hchange c

theorem keepsAll_step (hP : Invariant P) {p p' : Fcl.Progress α} (h : p.Step p') :
    p.controller.KeepsAll P p'.controller := by
  cases h with
  | set name operators => exact .of_eq rfl
  | enter hopen hblock => exact .of_eq rfl
  | leave hopen hblock => exact .of_eq rfl
  | describeInput hopen hnew hname => exact .of_eq rfl
  | describeOutput hopen hnew hname => exact .of_eq rfl
  | declareInput hadd => exact Controller.keepsAll_addInput hadd
  | declareOutput hname hcreate hadd => exact Controller.keepsAll_addOutput (hP.created hcreate) hadd
  | @inputTerm name t hopen hterm => exact Controller.keepsAll_onInput name _ _ p.controller
  | @outputTerm name t hopen hterm => exact keepsAll_changeOutput _ _ (hP.operation (.addTerm t))
  | @outputSetting name f hopen hkept =>
    exact keepsAll_changeOutput _ _ fun o => hP.setting (hkept o).1 (hkept o).2.1 (hkept o).2.2
  | @closeOutput name o hopen hfound hterms hbuilt =>
    exact Controller.keepsAll_onOutput name _ (hP.operation .discretize) p.controller
  | rule r hadded => exact keepsAll_addRule r p.controller

theorem forall_readFor (hP : Invariant P) (base : Controller α) (text : List Char) :
    ∀ o ∈ (Fcl.readFor base text).state.controller.outputs, P o := by
  have hmoves : (Fcl.readLines (α := α) (Fcl.linesOf text)).Moves
      fun p p' => p.controller.KeepsAll P p'.controller :=
    Fcl.Progress.moves_readLines (fun _ => KeepsAll.refl _) (fun _ _ _ => KeepsAll.trans)
      (fun _ _ => hP.keepsAll_step) (Fcl.linesOf text)
  exact hmoves (Fcl.Progress.start base.config base.operators)
    fun o ho => absurd ho List.not_mem_nil

theorem keepsAll_readFcl (hP : Invariant P) (text : List Char) :
    (Controller.readFcl (α := α) text).Moves (KeepsAll P) := by
  intro base
  by_cases h : (Fcl.readFor base text).answer = .ok () ∧
      ∀ name ∈ (Fcl.readFor base text).state.controller.names, name ∉ base.names
  · obtain ⟨notices, hread⟩ := Fcl.readFcl_of_disjoint h.1 h.2
    rw [hread]
    exact fun hbase => List.forall_mem_append.mpr ⟨hbase, hP.forall_readFor base text⟩
  · obtain ⟨notices, fault, hread⟩ := Fcl.readFcl_of_not_disjoint h
    rw [hread]
    exact KeepsAll.refl base

/-! ## Every operation -/

theorem keepsAll_evaluate (hP : Invariant P) (division : Division) (values : List (String × α)) :
    (Controller.evaluate division values).Moves (KeepsAll P) :=
  Controller.moves_evaluate KeepsAll.refl (fun _ _ _ => KeepsAll.trans)
    (fun name _ => Controller.keepsAll_onInput name _ _) hP.evaluation values

theorem keepsAll_run (hP : Invariant P) (operation : Operation α) :
    operation.run.Moves (KeepsAll P) := by
  cases operation with
  | addInput v => exact Controller.keepsAll_change fun _ _ => Controller.keepsAll_addInput
  | addOutput name terms resolution method defaultValue =>
    refine Controller.keepsAll_change fun c c' h => ?_
    obtain ⟨o, ho, hadd⟩ := bind_eq_ok.mp h
    exact Controller.keepsAll_addOutput (hP.created ho) hadd
  | addRule condition conclusion => exact keepsAll_addRule _
  | setRules _ => exact Controller.moves_replaceRules KeepsAll.refl fun _ _ => .of_eq rfl
  | setAnd _ | setOr _ | setActivation _ | setAccumulation _ =>
    exact Action.moves_change_map KeepsAll.refl fun _ _ => .of_eq rfl
  | clearRules | rename name => exact fun c => .of_eq (c := c) rfl
  | discretize => exact Controller.keepsAll_onEach (hP.operation .discretize)
  | fuzzify name x => exact Controller.keepsAll_onInput name _ _
  | evaluateRules => exact hP.evaluation
  | evaluate values =>
    exact Action.moves_bind (R := KeepsAll P) (fun _ _ _ => KeepsAll.trans)
      (hP.keepsAll_evaluate .checked values) fun _ => KeepsAll.refl
  | readFcl text => exact hP.keepsAll_readFcl text
  | onInput name operation => exact Controller.keepsAll_onInput name _ _
  | onOutput name operation => exact Controller.keepsAll_onOutput name _ (hP.operation operation)

/-- All outputs of a reachable controller have the property. -/
theorem forall_outputs (hP : Invariant P) {c : Controller α} (h : c.Reachable) :
    ∀ o ∈ c.outputs, P o := by
  induction h with
  | empty name hconfig => exact fun o ho => absurd ho List.not_mem_nil
  | @step c operation _ ih => exact hP.keepsAll_run operation c ih

end OutputVariable.Invariant

end FuzzyInference
