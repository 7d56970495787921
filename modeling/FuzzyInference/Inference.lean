import FuzzyInference.Controller

/-!
# Inference

One evaluation of a controller: the given inputs are fuzzified, the accumulated sets are cleared,
every rule is inferred, and every output is turned into a crisp value.
-/

namespace FuzzyInference.Controller

variable {α : Type} [Scalar α]

/-- Takes the degrees of a value in the terms of an input variable. -/
def fuzzify (division : Division) (name : String) (x : α) : Action (Controller α) Unit :=
  onInput name (.misconfigured (.unknownInput name)) (Variable.fuzzify division x)

/-- Refuses an output with an unsampled term, and clears the accumulated set of any other. -/
def prepare (o : OutputVariable α) : Except Fault (OutputVariable α) :=
  if o.isDiscretized then o.reset else .error (.misconfigured (.notDiscretized o.name))

/-- Infers every rule in order. -/
def inferRules : Action (Controller α) Unit := fun c =>
  let o := Action.sweep (Rule.infer c.operators c.inputs) (c.rules, c.outputs)
  ⟨{ c with rules := o.state.1, outputs := o.state.2 }, o.notices, o.answer⟩

/-- Infers the rules from the degrees that the inputs were last given. -/
def evaluateRules : Action (Controller α) Unit := do
  Action.within Controller.outputs (fun outputs c => { c with outputs })
    (Action.onEach (Action.change prepare))
  inferRules
  Action.within Controller.outputs (fun outputs c => { c with outputs })
    (Action.onEach do let _ ← OutputVariable.defuzzify)

def crispValues (c : Controller α) : List (String × α) := c.outputs.map fun o => (o.name, o.crisp)

/-- The crisp value of the output of a name. -/
def crispOf (name : String) (c : Controller α) : Except Fault α :=
  match c.output? name with
  | some o => .ok o.crisp
  | none => .error (.misconfigured (.unknownOutput name))

/-- Fuzzifies the given values, infers the rules and answers with the crisp values. -/
def evaluate (division : Division) (values : List (String × α)) :
    Action (Controller α) (List (String × α)) := do
  Action.forEach values fun (name, x) => fuzzify division name x
  evaluateRules
  Action.ask fun c => .ok c.crispValues

def strengths (c : Controller α) : Except Fault (List α) :=
  c.rules.mapM fun r => r.condition.strength c.inputs c.operators.norm

end FuzzyInference.Controller

namespace FuzzyInference

/-- The pairs with one entry for each name, which has the last value of the name and stands where
the name came first. -/
def lastValues {β : Type} (pairs : List (String × β)) : List (String × β) :=
  pairs.foldl (fun kept (name, value) =>
    if kept.any (·.1 == name) then
      kept.map fun entry => if entry.1 == name then (name, value) else entry
    else kept ++ [(name, value)]) []

end FuzzyInference
