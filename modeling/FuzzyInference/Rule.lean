import FuzzyInference.Condition
import FuzzyInference.OutputVariable

/-!
# Rules

A rule concludes a term of an output variable from a condition. Inference takes the strength of the
condition, shapes the samples of the concluded term with it, and combines them with the accumulated
set of the output over the cells that the term reaches.
-/

namespace FuzzyInference

/-- The operations that inference works with. -/
structure Operators where
  norm : NormPair
  activation : Activation
  accumulation : Accumulation
  deriving Repr, DecidableEq

structure Conclusion (α : Type) where
  name : String
  term : Int
  weight : α
  deriving Repr, DecidableEq

/-- A condition, a conclusion, and the level at which the rule was last activated. -/
structure Rule (α : Type) where
  condition : Condition
  conclusion : Conclusion α
  level : α
  deriving Repr, DecidableEq

variable {α : Type} [Scalar α]

def Activation.apply (activation : Activation) (level height : α) : α :=
  match activation with
  | .minimum => Scalar.minimum level height
  | .product => level * height

/-- The height of an accumulated set together with a further one. -/
def Accumulation.apply (accumulation : Accumulation) (activated existing : α) : α :=
  match accumulation with
  | .maximum => Scalar.maximum activated existing
  | .boundedSum => Scalar.minimum 1 (activated + existing)

def Conclusion.text (c : Conclusion α) : String :=
  "Conclusion(variable=" ++ Text.quoted c.name ++ ", term_index=" ++ toString c.term ++
    ", weight=" ++ Scalar.text c.weight ++ ")"

/-- Changes the cells from `start` to `stop`, both included, by what `combine` makes of a sample and
the height there. -/
def Grid.overlay (combine : α → α → α) (samples : List α) (start stop : Nat) (grid : Grid α) :
    Grid α :=
  { grid with
    ys := ((samples.zip grid.ys).zipIdx).map fun ((sample, y), i) =>
      if start ≤ i ∧ i ≤ stop then combine sample y else y }

namespace Rule

/-- The rule of a condition, not yet activated. -/
def ofCondition (condition : Condition) (name : String) (term : Int) (weight : α) : Rule α :=
  ⟨condition, ⟨name, term, weight⟩, 0⟩

/-- Whether two rules say the same. Their levels do not matter. -/
def equivalent (r s : Rule α) : Bool :=
  r.condition.equivalent s.condition && r.conclusion.name == s.conclusion.name &&
    r.conclusion.term == s.conclusion.term && r.conclusion.weight == s.conclusion.weight

def text (r : Rule α) : String := "IF " ++ r.condition.text ++ " THEN " ++ r.conclusion.text

/-- Sets the level to the strength of the condition times the weight. -/
def activate (inputs : List (Variable α)) (pair : NormPair) (r : Rule α) :
    Except Fault (Rule α) :=
  (r.condition.strength inputs pair).map fun s => { r with level := s * r.conclusion.weight }

/-- The grid cell of the point that `pick` takes from the concluded term. -/
def reach (pick : List (Point α) → Option (Point α)) (r : Rule α) (o : OutputVariable α) :
    Except Fault Int := do
  let t ← o.term r.conclusion.term
  match pick t.points with
  | none => throw .outOfBounds
  | some p => o.indexOf p.x

/-- The grid cell where the concluded term begins. -/
def start (r : Rule α) (o : OutputVariable α) : Except Fault Int := r.reach List.head? o

/-- The grid cell where the concluded term ends. -/
def stop (r : Rule α) (o : OutputVariable α) : Except Fault Int := r.reach List.getLast? o

/-- The cell of the grid nearest to a cell index. -/
def clip (resolution : Nat) (index : Int) : Nat := min index.toNat (resolution - 1)

/-- Combines the concluded term at the present level with the accumulated set. -/
def accumulate (operators : Operators) (r : Rule α) (o : OutputVariable α) :
    Except Fault (OutputVariable α) := do
  let first ← r.start o
  let last ← r.stop o
  let t ← o.term r.conclusion.term
  let grid ← o.grid?
  let combine (sample y : α) : α :=
    operators.accumulation.apply (operators.activation.apply r.level sample) y
  return { o with
    grid := some <|
      grid.overlay combine t.samples (clip o.resolution first) (clip o.resolution last) }

/-- Activates the rule and accumulates it in the output that it concludes on. -/
def infer (operators : Operators) (inputs : List (Variable α)) :
    Action (Rule α × List (OutputVariable α)) Unit := do
  Action.within Prod.fst (fun r s => (r, s.2)) (Action.change (activate inputs operators.norm))
  -- the rule as it is now, with the new level
  let (r, _) ← Action.look
  Action.within Prod.snd (fun outputs s => (s.1, outputs)) <|
    Action.onFirst (fun o => o.name == r.conclusion.name) (.unknownVariable r.conclusion.name)
      (Action.change (r.accumulate operators))

end Rule

end FuzzyInference
