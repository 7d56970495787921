import FuzzyInference.Rule

/-!
# Controllers

A controller owns input variables, output variables and rules, in the order in which they were
added, and the operations that inference works with. Names are unique over all variables, and no two
rules are equivalent.
-/

namespace FuzzyInference

/-- Variables, rules and settings of a fuzzy controller. -/
structure Controller (α : Type) where
  config : Config α
  name : String
  inputs : List (Variable α)
  outputs : List (OutputVariable α)
  rules : List (Rule α)
  operators : Operators

namespace Controller

variable {α : Type} [Scalar α]

/-- The empty controller of a configuration. -/
def ofConfig (config : Config α) (name : String) : Controller α where
  config
  name
  inputs := []
  outputs := []
  rules := []
  operators := ⟨config.norm, config.activation, config.accumulation⟩

def text (c : Controller α) : String :=
  "RuleBase:" ++ c.name ++ ": inputs=" ++ Text.quotedList (c.inputs.map (·.name)) ++
    ", outputs=" ++ Text.quotedList (c.outputs.map (·.name)) ++
    ", rules=" ++ toString c.rules.length

def input? (c : Controller α) (name : String) : Option (Variable α) :=
  c.inputs.find? (·.name == name)

def output? (c : Controller α) (name : String) : Option (OutputVariable α) :=
  c.outputs.find? (·.name == name)

/-- The input variable of a name, which has to be there. -/
def input (c : Controller α) (name : String) : Except Fault (Variable α) :=
  match c.input? name with
  | some v => .ok v
  | none => .error (.unknownVariable name)

/-- The output variable of a name, which has to be there. -/
def output (c : Controller α) (name : String) : Except Fault (OutputVariable α) :=
  match c.output? name with
  | some o => .ok o
  | none => .error (.unknownVariable name)

/-- The variable of a name, be it an input or an output, which has to be there. -/
def either (c : Controller α) (name : String) : Except Fault (Variable α) :=
  match c.input? name with
  | some v => .ok v
  | none => (c.output name).map (·.toVariable)

/-- Whether a variable has the name. -/
def declares (c : Controller α) (name : String) : Bool :=
  (c.input? name).isSome || (c.output? name).isSome

/-- Refuses a name that a variable has already. -/
def checkNew (c : Controller α) (name : String) : Except Fault Unit :=
  if c.declares name then .error (.misconfigured (.duplicateVariable name)) else .ok ()

/-- The controller with a further input variable, whose name must be new. -/
def addInput (c : Controller α) (v : Variable α) : Except Fault (Controller α) :=
  (c.checkNew v.name).map fun _ => { c with inputs := c.inputs ++ [v] }

/-- The controller with a further output variable, whose name must be new. -/
def addOutput (c : Controller α) (o : OutputVariable α) : Except Fault (Controller α) :=
  (c.checkNew o.name).map fun _ => { c with outputs := c.outputs ++ [o] }

/-- An action on the first input variable of a name; without one the fault is `missing`. -/
def onInput {β : Type} (name : String) (missing : Fault) (act : Action (Variable α) β) :
    Action (Controller α) β :=
  Action.within Controller.inputs (fun inputs c => { c with inputs })
    (Action.onFirst (·.name == name) missing act)

/-- An action on the first output variable of a name; without one the fault is `missing`. -/
def onOutput {β : Type} (name : String) (missing : Fault) (act : Action (OutputVariable α) β) :
    Action (Controller α) β :=
  Action.within Controller.outputs (fun outputs c => { c with outputs })
    (Action.onFirst (·.name == name) missing act)

/-- Builds the grids of the outputs, up to the first that has none. -/
def discretize : Action (Controller α) Unit :=
  Action.within Controller.outputs (fun outputs c => { c with outputs })
    (Action.onEach OutputVariable.buildGrid)

/-! ## Operators -/

def setNorm (choice : Choice NormPair) (value : Setting α) (c : Controller α) :
    Except Fault (Controller α) :=
  ((choice.select value).mapError .misconfigured).map fun norm =>
    { c with operators := { c.operators with norm } }

/-- Selects the conjunction; the disjunction goes with it. -/
def setAnd (value : Setting α) (c : Controller α) : Except Fault (Controller α) :=
  c.setNorm .andOperator value

def setOr (value : Setting α) (c : Controller α) : Except Fault (Controller α) :=
  c.setNorm .orOperator value

def setActivation (value : Setting α) (c : Controller α) : Except Fault (Controller α) :=
  ((Choice.activation.select value).mapError .misconfigured).map fun activation =>
    { c with operators := { c.operators with activation } }

def setAccumulation (value : Setting α) (c : Controller α) : Except Fault (Controller α) :=
  ((Choice.accumulation.select value).mapError .misconfigured).map fun accumulation =>
    { c with operators := { c.operators with accumulation } }

/-! ## Rules -/

/-- Refuses a comparison with a variable or a term that the controller does not have. -/
def checkComparison (c : Controller α) (leaf : Comparison) : Except Fault Unit :=
  match c.input? leaf.name with
  | none => .error (.misconfigured (.unknownRuleInput leaf.name))
  | some v => (v.term leaf.term).map fun _ => ()

/-- Refuses a conclusion on a variable or a term that the controller does not have. -/
def checkConclusion (c : Controller α) (conclusion : Conclusion α) : Except Fault Unit :=
  match c.output? conclusion.name with
  | none => .error (.misconfigured (.unknownRuleOutput conclusion.name))
  | some o => (o.term conclusion.term).map fun _ => ()

/-- Refuses a rule that refers to something that the controller does not have. -/
def checkRule (c : Controller α) (r : Rule α) : Except Fault Unit := do
  r.condition.leaves.forM c.checkComparison
  c.checkConclusion r.conclusion

/-- Adds a rule, unless an equivalent one is there; then there is only a notice. -/
def addRule (r : Rule α) : Action (Controller α) Unit := fun c =>
  match c.checkRule r with
  | .error f => ⟨c, [], .error f⟩
  | .ok () =>
    if c.rules.any (·.equivalent r) then ⟨c, [.duplicateRule r.text], .ok ()⟩
    else ⟨{ c with rules := c.rules ++ [r] }, [], .ok ()⟩

/-- Checks one rule after the other, and then replaces all rules by the first of each class of
equivalent ones. -/
def replaceRules (rules : List (Rule α)) : Action (Controller α) Unit := do
  Action.forEach rules fun r => Action.ask fun c => c.checkRule r
  Action.change fun c => .ok { c with rules := firstOfEach Rule.equivalent rules }

/-- The controller with the first of each class of equivalent rules, all of which must be valid. -/
def setRules (rules : List (Rule α)) (c : Controller α) : Except Fault (Controller α) :=
  (rules.forM c.checkRule).map fun _ => { c with rules := firstOfEach Rule.equivalent rules }

def clearRules (c : Controller α) : Controller α := { c with rules := [] }

end Controller

end FuzzyInference
