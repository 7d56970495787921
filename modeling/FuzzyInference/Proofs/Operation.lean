import FuzzyInference.Fcl.Reader
import FuzzyInference.Inference

/-!
# Operations on a controller

Everything that can be done with a controller, its variables and their terms, as data, and the
controllers that come out of any sequence of these operations.
-/

namespace FuzzyInference

variable {α : Type}

/-- What can be done with a term. -/
inductive TermOperation (α : Type) where
  | addPoint (p : Point α)
  | setPoints (points : List (Point α))
  | movePoint (index : Int) (x y : Option α)
  | takeDegree (x : α)
  | clearSamples (count : Int)
  | setSample (index : Int) (y : α)
  | rename (name : String)

/-- What can be done with an input variable. -/
inductive VariableOperation (α : Type) where
  | addTerm (t : Term α)
  | replaceTerms (terms : List (Term α))
  | fuzzify (x : α)
  | onTerm (index : Int) (operation : TermOperation α)

/-- What can be done with an output variable. -/
inductive OutputOperation (α : Type) where
  | addTerm (t : Term α)
  /-- A term that is put behind the others without dropping the grid. -/
  | appendTerm (t : Term α)
  | replaceTerms (terms : List (Term α))
  | fuzzify (x : α)
  | onTerm (index : Int) (operation : TermOperation α)
  | discretize
  | reset
  | setY (index : Int) (y : α)
  | fill (start : Int) (ys : List α)
  | defuzzify
  | setResolution (value : Setting α)
  | setMethod (value : Setting α)
  | setDefault (value : α)

/-- What can be done with a controller. -/
inductive Operation (α : Type) where
  | addInput (v : Variable α)
  | addOutput (name : String) (terms : List (Term α)) (resolution method defaultValue : Setting α)
  | addRule (condition : Condition) (conclusion : Conclusion α)
  | setRules (rules : List (Condition × Conclusion α))
  | clearRules
  | setAnd (value : Setting α)
  | setOr (value : Setting α)
  | setActivation (value : Setting α)
  | setAccumulation (value : Setting α)
  | rename (name : String)
  | discretize
  | fuzzify (name : String) (x : α)
  | evaluateRules
  | evaluate (values : List (String × α))
  | readFcl (text : List Char)
  | onInput (name : String) (operation : VariableOperation α)
  | onOutput (name : String) (operation : OutputOperation α)

variable [Scalar α]

/-- Carries out an operation on a term. -/
def TermOperation.run : TermOperation α → Action (Term α) Unit
  | .addPoint p => Action.change fun t => .ok (t.addPoint p)
  | .setPoints points => Action.change fun t => .ok (t.setPoints points)
  | .movePoint index x y => Action.change (·.movePoint index x y)
  | .takeDegree x => Action.change (·.fuzzify .checked x)
  | .clearSamples count => Action.change (·.clearSamples count)
  | .setSample index y => Action.change (·.setSample index y)
  | .rename name => Action.change fun t => .ok (t.rename name)

/-- Carries out an operation on an input variable. -/
def VariableOperation.run : VariableOperation α → Action (Variable α) Unit
  | .addTerm t => Action.change fun v => .ok (v.addTerm t)
  | .replaceTerms terms => Action.change fun v => .ok (v.replaceTerms terms)
  | .fuzzify x => Variable.fuzzify .checked x
  | .onTerm index operation => Variable.onTerm index operation.run

/-- Carries out an operation on an output variable. -/
def OutputOperation.run : OutputOperation α → Action (OutputVariable α) Unit
  | .addTerm t => Action.change fun o => .ok (o.addTerm t)
  | .appendTerm t =>
    OutputVariable.onVariable (Action.change fun v => .ok (v.addTerm t))
  | .replaceTerms terms => Action.change fun o => .ok (o.replaceTerms terms)
  | .fuzzify x => OutputVariable.onVariable (Variable.fuzzify .checked x)
  | .onTerm index operation => OutputVariable.onVariable (Variable.onTerm index operation.run)
  | .discretize => OutputVariable.buildGrid
  | .reset => Action.change OutputVariable.reset
  | .setY index y => Action.change (·.setY index y)
  | .fill start ys => OutputVariable.fill start ys
  | .defuzzify => do let _ ← OutputVariable.defuzzify
  | .setResolution value => Action.change (·.setResolution value)
  | .setMethod value => Action.change (·.setMethod value)
  | .setDefault defaultValue => Action.change fun o => .ok { o with defaultValue }

/-- Carries out an operation on a controller. -/
def Operation.run : Operation α → Action (Controller α) Unit
  | .addInput v => Action.change (·.addInput v)
  | .addOutput name terms resolution method defaultValue => Action.change fun c =>
    OutputVariable.create name terms resolution method defaultValue >>= c.addOutput
  | .addRule condition conclusion => Controller.addRule ⟨condition, conclusion, 0⟩
  | .setRules rules => Controller.replaceRules (rules.map fun r => ⟨r.1, r.2, 0⟩)
  | .clearRules => Action.change fun c => .ok c.clearRules
  | .setAnd value => Action.change (Controller.setAnd value)
  | .setOr value => Action.change (Controller.setOr value)
  | .setActivation value => Action.change (Controller.setActivation value)
  | .setAccumulation value => Action.change (Controller.setAccumulation value)
  | .rename name => Action.change fun c => .ok { c with name }
  | .discretize => Controller.discretize
  | .fuzzify name x => Controller.fuzzify .checked name x
  | .evaluateRules => Controller.evaluateRules
  | .evaluate values => do let _ ← Controller.evaluate .checked values
  | .readFcl text => Controller.readFcl text
  | .onInput name operation => Controller.onInput name (.unknownVariable name) operation.run
  | .onOutput name operation => Controller.onOutput name (.unknownVariable name) operation.run

/-- A configuration that has passed its checks, with a number as its default value. -/
def Config.Sound (config : Config α) : Prop :=
  (∃ data, Config.ofFields data = .ok config) ∧
    ∃ default, config.defaultValue.toScalar? = .ok default

/-- The controllers that come out of any sequence of operations, successful or not, on the empty
controller of a sound configuration. -/
inductive Controller.Reachable : Controller α → Prop where
  | empty {config : Config α} (name : String) : config.Sound → Reachable (ofConfig config name)
  | step {c : Controller α} (operation : Operation α) :
    Reachable c → Reachable (operation.run c).state

end FuzzyInference
