import FuzzyInference.Term

/-!
# Shapes

The usual shapes of terms, and families of triangles that share their feet: at every place the
degrees of neighbouring terms of such a family add up to one.
-/

namespace FuzzyInference.Shape

variable {α : Type} [Scalar α]

/-- The term with the given corners, once the check of their order has passed. -/
def checked (ordered : Bool) (name : String) (points : List (Point α)) : Except Fault (Term α) :=
  if ordered then .ok (.ofPoints name points) else .error .disordered

/-- A triangle over `a` and `c` with its peak over `b`. -/
def triangle (name : String) (a b c : α) : Except Fault (Term α) :=
  checked (decide (a ≤ b) && decide (b ≤ c)) name [⟨a, 0⟩, ⟨b, 1⟩, ⟨c, 0⟩]

/-- A trapezoid over `a` and `d` that is full from `b` to `c`. -/
def trapezoid (name : String) (a b c d : α) : Except Fault (Term α) :=
  checked (decide (a ≤ b) && decide (b ≤ c) && decide (c ≤ d)) name [⟨a, 0⟩, ⟨b, 1⟩, ⟨c, 1⟩, ⟨d, 0⟩]

/-- Full up to `a`, and falling to nothing at `b`. -/
def leftShoulder (name : String) (a b : α) : Except Fault (Term α) :=
  checked (decide (a ≤ b)) name [⟨a, 1⟩, ⟨b, 0⟩]

/-- Nothing up to `a`, and rising until it is full at `b`. -/
def rightShoulder (name : String) (a b : α) : Except Fault (Term α) :=
  checked (decide (a ≤ b)) name [⟨a, 0⟩, ⟨b, 1⟩]

/-- The names of a family: a stem that is numbered, or a list. -/
inductive Names where
  | stem (name : String)
  | listed (names : List String)

/-- The names of a family of `count` terms. -/
def Names.expand (names : Names) (count : Nat) : List String :=
  match names with
  | .stem name => (List.range count).map fun i => name ++ "-" ++ toString i
  | .listed names => names

def nameAt (names : List String) (i : Nat) : Except Fault String :=
  match names[i]? with
  | some name => .ok name
  | none => .error .outOfBounds

/-- `count` terms with equally distant peaks from `x₀` to `x₁`, shoulders at both ends. The last
term takes the last name of the list. The count has to lie in the range of the scalars. -/
def uniformPartition (names : Names) (x₀ x₁ : α) (count : Int) : Except Fault (List (Term α)) := do
  if count < 2 then throw (.misconfigured .smallUniformPartition)
  -- the spacing is a quotient, so its divisor has to be a scalar
  let _ ← ((Setting.integer (count - 1) : Setting α).toScalar?).mapError .setting
  let n := count.toNat
  let names := names.expand n
  let spacing := (x₁ - x₀) / ((n - 1 : Nat) : α)
  let peak (i : Nat) : α := x₀ + (i : α) * spacing
  let first ← leftShoulder (← nameAt names 0) x₀ (x₀ + spacing)
  let middle ← (List.range (min (n - 2) names.length)).mapM fun i => do
    triangle (← nameAt names (i + 1)) (peak i) (peak (i + 1)) (peak (i + 2))
  let last ← rightShoulder (← nameAt names (names.length - 1)) (peak (n - 2)) x₁
  return first :: (middle ++ [last])

def trianglesFrom (before : α) (name : String) (center : α) :
    List (String × α) → Except Fault (List (Term α))
  | [] => do return [← rightShoulder name before center]
  | (next, after) :: rest => do
    let term ← triangle name before center after
    let terms ← trianglesFrom center next after rest
    return term :: terms

/-- One term for each center, which is full there and nothing at the centers beside it. -/
def trianglePartition (centers : List (String × α)) : Except Fault (List (Term α)) :=
  match centers with
  | (name, center) :: (next, after) :: rest => do
    let term ← leftShoulder name center after
    let terms ← trianglesFrom center next after rest
    return term :: terms
  | _ => throw (.misconfigured .smallTrianglePartition)

end FuzzyInference.Shape
