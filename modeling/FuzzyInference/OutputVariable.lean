import FuzzyInference.Config
import FuzzyInference.Scalar.Series
import FuzzyInference.Variable

/-!
# Output variables

A variable whose value is inferred. The accumulated set of its conclusions lives on a grid of evenly
spaced points over the domains of its terms. Building the grid samples every term on it, and
defuzzifying turns the accumulated set into one number.
-/

namespace FuzzyInference

/-- The points of a grid with the heights of the accumulated set there. -/
structure Grid (α : Type) where
  xs : List α
  ys : List α
  deriving Repr, DecidableEq

/-- A variable with a grid, which is missing until it is built. -/
structure OutputVariable (α : Type) extends Variable α where
  crisp : α
  defaultValue : α
  resolution : Nat
  method : Defuzzification
  grid : Option (Grid α)
  deriving Repr, DecidableEq

namespace OutputVariable

variable {α : Type} [Scalar α]

/-- An output variable with settings that are still to be checked, the default value first. -/
def create (name : String) (terms : List (Term α)) (resolution method defaultValue : Setting α) :
    Except Fault (OutputVariable α) := do
  let default ← defaultValue.toScalar?.mapError .setting
  let count ← resolution? resolution
  let chosen ← (Choice.defuzzification.select method).mapError .misconfigured
  return {
    name, terms, crisp := 0, defaultValue := default, resolution := count, method := chosen
    grid := none }

def text (o : OutputVariable α) : String := o.toVariable.describe "OutputVariable"

/-- An action on the variable as one with terms; the grid stays. -/
def onVariable {β : Type} (act : Action (Variable α) β) : Action (OutputVariable α) β :=
  Action.within OutputVariable.toVariable (fun v o => { o with toVariable := v }) act

/-- The variable with a further term. The grid is dropped, as it was built for the old terms. -/
def addTerm (o : OutputVariable α) (t : Term α) : OutputVariable α :=
  { o with toVariable := o.toVariable.addTerm t, grid := none }

def replaceTerms (o : OutputVariable α) (terms : List (Term α)) : OutputVariable α :=
  { o with toVariable := o.toVariable.replaceTerms terms, grid := none }

/-- Sets the number of grid points and drops the grid. -/
def setResolution (o : OutputVariable α) (value : Setting α) : Except Fault (OutputVariable α) :=
  (resolution? value).map fun resolution => { o with resolution, grid := none }

/-- Selects the defuzzification; the grid stays. -/
def setMethod (o : OutputVariable α) (value : Setting α) : Except Fault (OutputVariable α) :=
  ((Choice.defuzzification.select value).mapError .misconfigured).map fun method =>
    { o with method }

/-- Whether the grid is built and every term has as many samples as the grid has points. -/
def isDiscretized (o : OutputVariable α) : Bool :=
  o.grid.isSome && o.terms.all (·.samples.length == o.resolution)

def grid? (o : OutputVariable α) : Except Fault (Grid α) :=
  match o.grid with
  | some grid => .ok grid
  | none => .error (.misconfigured (.noGrid o.name))

/-- The points of a new grid for terms with the given domains. -/
def span (domains : List (α × α)) (count : Nat) : List α :=
  match domains with
  | [] => []
  | (low, high) :: rest =>
    Scalar.spaced (Scalar.least low (rest.map Prod.fst)) (Scalar.greatest high (rest.map Prod.snd))
      count

/-- The points of the grid that the terms ask for. -/
def gridPoints (o : OutputVariable α) : Except Fault (List α) := do
  if o.terms.isEmpty then throw (.misconfigured (.noTerms o.name))
  let domains ← o.terms.mapM Term.domain
  return span domains o.resolution

/-- Builds the grid, and then samples one term after the other on it. -/
def buildGrid : Action (OutputVariable α) Unit := do
  let xs ← Action.ask gridPoints
  Action.change fun o => .ok { o with grid := some ⟨xs, List.replicate o.resolution 0⟩ }
  Action.within (·.terms) (fun terms o => { o with terms }) (Action.onEach (Term.takeSamples xs))

/-- The variable with its grid and with every term sampled on it. -/
def discretize (o : OutputVariable α) : Except Fault (OutputVariable α) := do
  if o.terms.isEmpty then throw (.misconfigured (.noTerms o.name))
  let domains ← o.terms.mapM Term.domain
  let xs := span domains o.resolution
  let terms ← o.terms.mapM (Term.sampleOn · xs)
  return { o with terms, grid := some ⟨xs, List.replicate o.resolution 0⟩ }

def reset (o : OutputVariable α) : Except Fault (OutputVariable α) :=
  o.grid?.map fun grid => { o with grid := some { grid with ys := grid.ys.map fun _ => 0 } }

def delta (o : OutputVariable α) : Except Fault α :=
  o.grid?.map fun grid =>
    if o.resolution < 2 then 0
    else (grid.xs.getLastD 0 - grid.xs.headD 0) / ((o.resolution - 1 : Nat) : α)

/-- The grid cell that holds `x`, which may lie outside the grid. A grid point counts as reached a
little before it, because evenly spaced points are not exact. -/
def indexOf (o : OutputVariable α) (x : α) : Except Fault Int := do
  let grid ← o.grid?
  let delta ← o.delta
  -- all points of the grid are one
  if delta == 0 then return 0
  (Scalar.floor? ((x - grid.xs.headD 0) / delta + Scalar.billionth)).mapError .noIndex

/-- The grid and the place that an index names on it. -/
def cell (o : OutputVariable α) (index : Int) : Except Fault (Grid α × Nat) := do
  let grid ← o.grid?
  if 0 ≤ index ∧ index < o.resolution then return (grid, index.toNat)
  else throw (.misconfigured (.gridIndex index o.name o.resolution))

def gridX (o : OutputVariable α) (index : Int) : Except Fault α :=
  (o.cell index).map fun (grid, i) => grid.xs.getD i 0

def gridY (o : OutputVariable α) (index : Int) : Except Fault α :=
  (o.cell index).map fun (grid, i) => grid.ys.getD i 0

def setY (o : OutputVariable α) (index : Int) (y : α) : Except Fault (OutputVariable α) :=
  (o.cell index).map fun (grid, i) => { o with grid := some { grid with ys := grid.ys.set i y } }

/-- Sets the heights of successive grid points, up to the first index outside the grid. -/
def fill (start : Int) (ys : List α) : Action (OutputVariable α) Unit :=
  Action.forEach ys.zipIdx fun (y, i) => Action.change (·.setY (start + i) y)

/-- The centre of gravity of a set with a given total mass. -/
def gravityCentre (grid : Grid α) (total : α) : α :=
  Scalar.sum (List.zipWith (· * ·) grid.xs grid.ys) / total

/-- The first grid point where more than half of the mass has been passed. -/
def areaCentre (grid : Grid α) (total : α) : α :=
  let passed := (Scalar.runningSums grid.ys).findIdx? fun s => decide (Scalar.half * total < s)
  grid.xs.getD (passed.getD 0) 0

/-- The number that stands for the accumulated set, and whether the set has mass at all. -/
def centre (o : OutputVariable α) (grid : Grid α) : α × Bool :=
  let total := Scalar.sum grid.ys
  if total ≤ 0 then (o.defaultValue, false)
  else
    match o.method with
    -- both labels stand for the centre of gravity
    | .gravity | .singletons => (gravityCentre grid total, true)
    | .area => (areaCentre grid total, true)

/-- Turns the accumulated set into the crisp value. A set without mass gives the default value and a
notice. -/
def defuzzify : Action (OutputVariable α) α := fun o =>
  match o.grid? with
  | .error f => ⟨o, [], .error f⟩
  | .ok grid =>
    let (crisp, hasMass) := o.centre grid
    let notices := if hasMass then [] else [Notice.noMass o.name (Scalar.text o.defaultValue)]
    ⟨{ o with crisp }, notices, .ok crisp⟩

end OutputVariable

end FuzzyInference
