import FuzzyInference.Proofs.ClosedForm
import FuzzyInference.Proofs.Freshness

/-!
# Steps

A controller is read, evaluated and configured in any order.  A step that neither reads an input nor
evaluates changes rules and settings alone; an evaluation changes levels, heights and crisp values.
-/

namespace FuzzyInference

variable {α : Type}

/-- What can be done with a controller whose variables, terms and grids stay as they are. -/
inductive Step (α : Type) where
  | fuzzify (name : String) (reading : Reading α)
  | evaluate (division : Division) (values : List (String × α))
  | evaluateRules
  | addRule (r : Rule α)
  | setRules (rules : List (Rule α))
  | clearRules
  | setAnd (value : Setting α)
  | setOr (value : Setting α)
  | setActivation (value : Setting α)
  | setAccumulation (value : Setting α)
  | setMethod (output : String) (value : Setting α)
  | setDefault (output : String) (value : α)

variable [Scalar α]

namespace Step

/-- Carries out a step. -/
def run : Step α → Action (Controller α) Unit
  | .fuzzify name r => Controller.fuzzify r.division name r.value
  | .evaluate division values => do let _ ← Controller.evaluate division values
  | .evaluateRules => Controller.evaluateRules
  | .addRule r => Controller.addRule r
  | .setRules rules => Controller.replaceRules rules
  | .clearRules => Action.change fun c => .ok c.clearRules
  | .setAnd value => Action.change (Controller.setAnd value)
  | .setOr value => Action.change (Controller.setOr value)
  | .setActivation value => Action.change (Controller.setActivation value)
  | .setAccumulation value => Action.change (Controller.setAccumulation value)
  | .setMethod output value =>
    Controller.onOutput output (.unknownVariable output) (Action.change (·.setMethod value))
  | .setDefault output value => Controller.onOutput output (.unknownVariable output)
    (Action.change fun o => .ok { o with defaultValue := value })

/-- The readings that a step takes. -/
def readings : Step α → List (String × Reading α)
  | .fuzzify name r => [(name, r)]
  | .evaluate division values => Controller.readingsOf division values
  | _ => []

/-- The step neither reads an input nor evaluates. -/
def Sets : Step α → Prop
  | .fuzzify _ _ => False
  | .evaluate _ _ => False
  | .evaluateRules => False
  | _ => True

end Step

/-! ## Steps that set something -/

/-- The output before its first evaluation, without its settings. -/
def OutputVariable.stem (o : OutputVariable α) : OutputVariable α :=
  { o.fresh with method := .gravity, defaultValue := 0 }

namespace Controller

variable {c d : Controller α}

/-- Nothing but rules and settings has been changed. -/
structure Configured (c d : Controller α) : Prop where
  config : d.config = c.config
  name : d.name = c.name
  inputs : d.inputs = c.inputs
  outputs : d.outputs.map OutputVariable.stem = c.outputs.map OutputVariable.stem

theorem Configured.refl (c : Controller α) : c.Configured c := ⟨rfl, rfl, rfl, rfl⟩

theorem stem_of_evaluateRules (hgridded : ∀ o ∈ c.outputs, o.Gridded)
    (h : evaluateRules.Leads c d ()) :
    d.outputs.map OutputVariable.stem = c.outputs.map OutputVariable.stem := by
  obtain ⟨-, -, -, houtputs⟩ := fresh_of_evaluateRules hgridded h
  have hstem := congrArg
    (List.map fun o : OutputVariable α => { o with method := .gravity, defaultValue := 0 }) houtputs
  rwa [List.map_map, List.map_map] at hstem

theorem configured_addRule (r : Rule α) : (addRule r).Moves Configured := by
  intro c
  unfold addRule
  split
  · exact .refl c
  · split
    · exact .refl c
    · exact { Configured.refl c with }

theorem configured_onOutput (name : String) (missing : Fault)
    {f : OutputVariable α → Except Fault (OutputVariable α)}
    (hf : ∀ o o', f o = .ok o' → o'.stem = o.stem) :
    (onOutput name missing (Action.change f)).Moves Configured := by
  have hrefl (o : OutputVariable α) : o.stem = o.stem := rfl
  refine Action.moves_within (Action.moves_onFirst hrefl (Action.moves_change hrefl hf)) ?_
  intro c outputs h
  exact { Configured.refl c with outputs := Action.map_eq_of_forall₂ (fun _ _ ho => ho) h }

/-- A step that neither reads nor evaluates changes rules and settings alone. -/
theorem configured_step {step : Step α} (h : step.Sets) : step.run.Moves Configured := by
  cases step with
  | fuzzify name r => exact h.elim
  | evaluate division values => exact h.elim
  | evaluateRules => exact h.elim
  | addRule r => exact configured_addRule r
  | setRules _ => exact moves_replaceRules .refl fun c _ => { Configured.refl c with }
  | setAnd _ | setOr _ | setActivation _ | setAccumulation _ =>
    exact Action.moves_change_map .refl fun c _ => { Configured.refl c with }
  | clearRules => exact fun c => { Configured.refl c with }
  | setMethod output value =>
    refine configured_onOutput _ _ fun o o' hset => ?_
    obtain ⟨method, -, rfl⟩ := map_eq_ok.mp hset
    rfl
  | setDefault output value =>
    refine configured_onOutput _ _ fun o o' hset => ?_
    rw [← Except.ok.inj hset]
    rfl

/-- A fan for a room with two sensors and a switch that nobody touches. -/
def roomFan : Controller Rat :=
  { fan .boundedSum with
    inputs := [
      ⟨"temperature",
        [⟨"cold", [⟨0, 1⟩, ⟨30, 0⟩], 3 / 4, [0]⟩, ⟨"hot", [⟨0, 0⟩, ⟨30, 1⟩], 1 / 2, [0]⟩]⟩,
      ⟨"humidity", [⟨"high", [⟨50, 0⟩, ⟨100, 1⟩], 0, [0]⟩]⟩,
      ⟨"switch", [⟨"on", [⟨0, 0⟩, ⟨1, 1⟩], 0, [0]⟩]⟩] }

/-- A day of the fan in the room. -/
def roomDay : List (Step Rat) := [
  .fuzzify "humidity" ⟨.checked, 90⟩,
  .fuzzify "temperature" ⟨.checked, 27⟩,
  .evaluateRules,
  .setActivation (.text "PROD"),
  .addRule (.ofCondition (.or (.is ⟨"humidity", 0, false⟩) (.is ⟨"switch", 0, false⟩)) "speed" 1 1),
  .setMethod "speed" (.text "COA"),
  .evaluate .total [("temperature", 12)]]

theorem gridded_roomFan : ∀ o ∈ roomFan.outputs, o.Gridded := by
  intro o ho grid hgrid
  rw [List.mem_singleton.mp ho] at hgrid ⊢
  rw [← Option.some.inj hgrid]
  rfl

end Controller

end FuzzyInference
