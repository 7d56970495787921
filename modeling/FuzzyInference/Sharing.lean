import FuzzyInference.Inference

/-!
# Terms in common

Variables may be made of the same terms, and whatever is done to a term is then seen by all of them.
Here the terms lie in a store, and a variable holds the places of its own. Viewed from outside, each
variable has the terms that lie at its places; a controller whose variables hold no term in common
is a controller whose variables own their terms.
-/

namespace FuzzyInference

/-- A variable that holds its terms by their places in a store. -/
structure Holder where
  name : String
  places : List Nat
  deriving Repr, DecidableEq

/-- An output variable that holds its terms by their places in a store. -/
structure OutputHolder (α : Type) extends Holder where
  crisp : α
  defaultValue : α
  resolution : Nat
  method : Defuzzification
  grid : Option (Grid α)
  deriving Repr, DecidableEq

/-- A controller whose variables may hold terms in common. Each rule has a level of its own. -/
structure SharedController (α : Type) where
  config : Config α
  name : String
  store : Nat → Term α
  inputs : List Holder
  outputs : List (OutputHolder α)
  rules : List (Rule α)
  operators : Operators

variable {α : Type}

/-- The variable with the terms at its places. -/
def Holder.load (store : Nat → Term α) (v : Holder) : Variable α := ⟨v.name, v.places.map store⟩

namespace OutputHolder

/-- The output variable with the terms at its places. -/
def load (store : Nat → Term α) (o : OutputHolder α) : OutputVariable α where
  toVariable := o.toHolder.load store
  crisp := o.crisp
  defaultValue := o.defaultValue
  resolution := o.resolution
  method := o.method
  grid := o.grid

/-- The output variable after a change of anything but its name and its terms. -/
def save (o : OutputHolder α) (p : OutputVariable α) : OutputHolder α where
  toHolder := o.toHolder
  crisp := p.crisp
  defaultValue := p.defaultValue
  resolution := p.resolution
  method := p.method
  grid := p.grid

end OutputHolder

namespace SharedController

/-- The controller with the terms at their places. -/
def view (s : SharedController α) : Controller α where
  config := s.config
  name := s.name
  inputs := s.inputs.map (Holder.load s.store)
  outputs := s.outputs.map (OutputHolder.load s.store)
  rules := s.rules
  operators := s.operators

/-- The controller after a change of anything but its name, its inputs and its terms. -/
def save (c : Controller α) (s : SharedController α) : SharedController α :=
  { s with
    outputs := List.zipWith OutputHolder.save s.outputs c.outputs
    rules := c.rules
    operators := c.operators }

/-- An action that looks at the terms and leaves them as they are. -/
def apart {β : Type} (act : Action (Controller α) β) : Action (SharedController α) β :=
  Action.within view save act

/-- Puts a term into the store, where every variable that holds the place finds it. -/
def put (place : Nat) (t : Term α) (s : SharedController α) : SharedController α :=
  { s with store := fun q => if q = place then t else s.store q }

def input? (s : SharedController α) (name : String) : Option Holder :=
  s.inputs.find? (·.name == name)

variable [Scalar α]

/-- Takes the degree of a value in the term at a place. -/
def takeDegree (division : Division) (x : α) (place : Nat) : Action (SharedController α) Unit :=
  Action.within (fun s => s.store place) (put place) (Action.change (Term.fuzzify · division x))

/-- Takes the degrees of a value in the terms of an input variable. -/
def fuzzify (division : Division) (name : String) (x : α) : Action (SharedController α) Unit := do
  let s ← Action.look
  match s.input? name with
  | none => Action.fail (.misconfigured (.unknownInput name))
  | some v => Action.forEach v.places (takeDegree division x)

/-- Fuzzifies the given values, infers the rules and answers with the crisp values. -/
def evaluate (division : Division) (values : List (String × α)) :
    Action (SharedController α) (List (String × α)) := do
  Action.forEach values fun (name, x) => fuzzify division name x
  apart Controller.evaluateRules
  Action.ask fun s => .ok s.view.crispValues

end SharedController

end FuzzyInference
