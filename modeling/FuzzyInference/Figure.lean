import FuzzyInference.OutputVariable

/-!
# Figures

Drawings of terms, of accumulated sets and of control curves, as plain data.
-/

namespace FuzzyInference

/-- A line through points. A set that is not built yet has none. -/
structure Trace (α : Type) where
  name : String
  mode : String
  axis : Option String
  fill : Option String
  xs : Option (List α)
  ys : Option (List α)

/-- A vertical line from one abscissa to another in a pattern. -/
structure Mark (α : Type) where
  start : α
  stop : α
  pattern : String

structure Figure (α : Type) where
  traces : List (Trace α)
  annotations : List String
  marks : List (Mark α)
  title : Option String
  xTitle : Option String
  yTitle : Option String

namespace Figure

variable {α : Type} [Scalar α]

/-- The abscissas that the terms of a variable are drawn over. -/
def axisPoints (v : Variable α) (count : Int) : Except Fault (List α) := do
  let domains ← v.terms.mapM Term.domain
  match domains with
  | [] => throw .outOfBounds
  | (low, high) :: rest =>
    if count < 0 then throw .badCount
    let low := (rest.map Prod.fst).foldl Scalar.minimum low
    let high := (rest.map Prod.snd).foldl Scalar.maximum high
    return Scalar.spaced low high count.toNat

/-- The lines of the terms of a variable in the subplot of a number. -/
def termTraces (count : Int) (number : Nat) (v : Variable α) : Except Fault (List (Trace α)) := do
  let xs ← axisPoints v count
  v.terms.mapM fun t => do
    let curve ← t.curve
    return {
      name := t.name, mode := "lines"
      axis := some (if number = 1 then "x" else "x" ++ toString number)
      fill := none, xs := some xs, ys := some (xs.map curve) }

/-- One subplot for each variable, with all its terms over its domain. -/
def ofTerms (shown : List (Variable α)) (count : Int) : Except Fault (Figure α) := do
  if shown.isEmpty then throw .badCount
  let traces ← shown.zipIdx.mapM fun (v, i) => termTraces count (i + 1) v
  return {
    traces := traces.flatten
    annotations := shown.map fun v => "Membership Functions of " ++ v.name
    marks := [], title := none, xTitle := none, yTitle := none }

/-- The accumulated set of an output with its crisp value. -/
def ofGrid (o : OutputVariable α) : Figure α where
  traces := [{
    name := o.name, mode := "lines", axis := none, fill := some "tozeroy"
    xs := o.grid.map Grid.xs, ys := o.grid.map Grid.ys }]
  annotations := [o.method.label ++ " = " ++ Scalar.briefText o.crisp]
  marks := [⟨o.crisp, o.crisp, "dash"⟩]
  title := some ("Accumulated output: " ++ o.name)
  xTitle := some o.name
  yTitle := some "Degree of membership"

/-- The curve of a controller with a single input. -/
def ofCurve (xs ys : List α) (input output : String) : Figure α where
  traces := [{
    name := output, mode := "lines+markers", axis := none, fill := none, xs := some xs
    ys := some ys }]
  annotations := []
  marks := []
  title := some (output ++ " vs. " ++ input)
  xTitle := some input
  yTitle := some output

end Figure

end FuzzyInference
