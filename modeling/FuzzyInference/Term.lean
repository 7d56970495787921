import FuzzyInference.Action

/-!
# Terms

A term is a named fuzzy set with the shape of a polyline. Outside its first and last point it keeps
their heights. A term also remembers the degree that it was last given, and its samples on the grid
of the output variable that owns it.
-/

namespace FuzzyInference

structure Point (α : Type) where
  x : α
  y : α
  deriving Repr, DecidableEq

/-- A named polyline with the degree of the last value and the samples on a grid. -/
structure Term (α : Type) where
  name : String
  points : List (Point α)
  dom : α
  samples : List α
  deriving Repr, DecidableEq

/-- What a division by zero does: a single number is refused, a grid takes whatever value the total
division of the scalars gives. -/
inductive Division where
  | checked
  | total
  deriving Repr, DecidableEq

/-- The place that an index names in a list of `count` items; negative ones count from the end. -/
def place? (count : Nat) (index : Int) : Option Nat :=
  let i := if index < 0 then index + count else index
  if 0 ≤ i ∧ i < count then some i.toNat else none

variable {α : Type} [Scalar α]

namespace Point

/-- Puts a point behind all points that are not to its right. -/
def insert (p : Point α) : List (Point α) → List (Point α)
  | [] => [p]
  | q :: qs => if p.x < q.x then p :: q :: qs else q :: insert p qs

/-- The points from left to right; points above each other keep their order. -/
def sort (points : List (Point α)) : List (Point α) :=
  points.foldl (fun sorted p => insert p sorted) []

/-- Adding a point to a list and sorting is putting it into the sorted list. -/
theorem sort_append_singleton (points : List (Point α)) (p : Point α) :
    sort (points ++ [p]) = insert p (sort points) := by
  simp [sort, List.foldl_append]

/-- The height at `x` of the line through two points. -/
def height (division : Division) (p q : Point α) (x : α) : Except Fault α :=
  let width := q.x - p.x
  if division = .checked ∧ (width == 0) = true then .error .zeroDivisor
  else .ok (p.y + (q.y - p.y) * (x - p.x) / width)

/-- The first place from `low` up to `high` where the abscissa is not below `x`, found by halving
the interval. -/
def bisect (points : List (Point α)) (x : α) (low high : Nat) : Nat :=
  if low < high then
    let middle := (low + high) / 2
    match points[middle]? with
    | some p => if p.x < x then bisect points x (middle + 1) high else bisect points x low middle
    | none => low
  else low
termination_by high - low

def text (p : Point α) : String := "(" ++ Scalar.text p.x ++ ", " ++ Scalar.text p.y ++ ")"

end Point

namespace Term

/-- The term through the given points. -/
def ofPoints (name : String) (points : List (Point α)) : Term α :=
  ⟨name, Point.sort points, 0, [0]⟩

def rename (t : Term α) (name : String) : Term α := { t with name }

def addPoint (t : Term α) (p : Point α) : Term α :=
  { t with points := Point.sort (t.points ++ [p]) }

def setPoints (t : Term α) (points : List (Point α)) : Term α :=
  { t with points := Point.sort points }

/-- The point with an index, which may count from the end. -/
def point? (t : Term α) (index : Int) : Except Fault (Point α) :=
  match (place? t.points.length index).bind (t.points[·]?) with
  | some p => .ok p
  | none => .error .outOfBounds

/-- Moves a point without sorting the points again. -/
def movePoint (t : Term α) (index : Int) (x y : Option α) : Except Fault (Term α) := do
  let p ← t.point? index
  let moved : Point α := ⟨x.getD p.x, y.getD p.y⟩
  -- the point has been found, so its place is there
  return { t with points := t.points.set ((place? t.points.length index).getD 0) moved }

/-- The abscissas of the first and the last point. -/
def domain (t : Term α) : Except Fault (α × α) :=
  match t.points with
  | [] => .error (.misconfigured (.noPoints t.name))
  | first :: rest => .ok (first.x, (rest.getLastD first).x)

/-- The degree to which `x` belongs to the term. Between the ends the segment is found by halving;
where no abscissa is below `x`, the segment runs from the last point to the first. -/
def degree (t : Term α) (division : Division) (x : α) : Except Fault α :=
  match t.points with
  | [] => .error (.misconfigured (.noPoints t.name))
  | first :: rest =>
    let last := rest.getLastD first
    if x ≤ first.x then .ok first.y
    else if last.x ≤ x then .ok last.y
    else
      let points := first :: rest
      let i := Point.bisect points x 0 points.length
      -- no point stands before the first one where the points are out of order
      let left := if i = 0 then last else points.getD (i - 1) last
      Point.height division left (points.getD i first) x

def fuzzify (t : Term α) (division : Division) (x : α) : Except Fault (Term α) :=
  (t.degree division x).map fun dom => { t with dom }

/-- The whole shape as a function. It is drawn segment by segment: `x` lies on the segment before
the first point that is not to its left. -/
def curve (t : Term α) : Except Fault (α → α) :=
  match t.points with
  | [] => .error (.misconfigured (.noPoints t.name))
  | [p] => .ok fun _ => p.y
  | first :: second :: rest =>
    .ok fun x =>
      let points := first :: second :: rest
      let last := (second :: rest).getLastD first
      if last.x ≤ x then last.y
      else if x ≤ first.x then first.y
      else
        let before := (points.takeWhile fun p => decide (p.x < x)).length
        let i := min (max before 1) (points.length - 1)
        let p := points.getD (i - 1) first
        let q := points.getD i last
        p.y + (q.y - p.y) * (x - p.x) / (q.x - p.x)

/-- The term with `count` samples, all zero. -/
def clearSamples (t : Term α) (count : Int) : Except Fault (Term α) :=
  if count < 0 then .error .badCount else .ok { t with samples := List.replicate count.toNat 0 }

def samplePlace (t : Term α) (index : Int) : Except Fault Nat :=
  if 0 ≤ index ∧ index < t.samples.length then .ok index.toNat
  else .error (.misconfigured (.sampleIndex index t.name t.samples.length))

def setSample (t : Term α) (index : Int) (y : α) : Except Fault (Term α) :=
  (t.samplePlace index).map fun i => { t with samples := t.samples.set i y }

/-- The sample at a place of the grid. -/
def sample (t : Term α) (index : Int) : Except Fault α :=
  (t.samplePlace index).map fun i => t.samples.getD i 0

/-- Goes through points of a grid, takes the degree of each and writes it down as the next sample.
Those in `done` have been written, the last one first; what is not reached stays zero. -/
def sampleFrom (done : List α) : (rest : List α) → Action (Term α) Unit
  | [], t => ⟨{ t with samples := done.reverse }, [], .ok ()⟩
  | x :: rest, t =>
    match t.fuzzify .total x with
    | .ok t => sampleFrom (t.dom :: done) rest t
    | .error f =>
      let samples := done.reverse ++ List.replicate (rest.length + 1) 0
      ⟨{ t with samples }, [], .error f⟩

/-- Samples the term on a grid, point by point. -/
def takeSamples (grid : List α) : Action (Term α) Unit := do
  Action.change (·.clearSamples grid.length)
  sampleFrom [] grid

/-- The term sampled on a grid; the degree of the last grid point is remembered. -/
def sampleOn (t : Term α) (grid : List α) : Except Fault (Term α) := do
  let samples ← grid.mapM (t.degree .total)
  return { t with samples, dom := samples.getLastD t.dom }

/-- Whether two terms have one name and one shape. -/
def same (s t : Term α) : Bool :=
  s.name == t.name && s.points.length == t.points.length &&
    (s.points.zip t.points).all fun (p, q) => p.x == q.x && p.y == q.y

/-- The term as text: its name and its points. -/
def text (t : Term α) : String :=
  "MembershipFunction:" ++ t.name ++ ":" ++ " ".intercalate (t.points.map Point.text)

end Term

end FuzzyInference
