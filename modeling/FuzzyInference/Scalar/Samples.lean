import FuzzyInference.Fault

/-!
# Samples

A value that is either a single scalar or a series of them. Operations work on every item, and a
single scalar, or a series of one, goes with a series of any length.
-/

namespace FuzzyInference

/-- A scalar or a series of scalars. -/
inductive Samples (α : Type) where
  | single (x : α)
  | series (xs : List α)
  deriving Repr, DecidableEq

namespace Samples

variable {α β γ : Type}

def map (f : α → β) : Samples α → Samples β
  | .single x => .single (f x)
  | .series xs => .series (xs.map f)

/-- Two series item by item. -/
def zipSeries (f : α → β → γ) (xs : List α) (ys : List β) : Except Fault (List γ) :=
  match xs, ys with
  | [x], ys => .ok (ys.map (f x))
  | xs, [y] => .ok (xs.map (f · y))
  | xs, ys => if xs.length = ys.length then .ok (List.zipWith f xs ys) else .error .shapes

def zip (f : α → β → γ) : Samples α → Samples β → Except Fault (Samples γ)
  | .single x, .single y => .ok (.single (f x y))
  | .single x, .series ys => .ok (.series (ys.map (f x)))
  | .series xs, .single y => .ok (.series (xs.map (f · y)))
  | .series xs, .series ys => (zipSeries f xs ys).map .series

def toList : Samples α → List α
  | .single x => [x]
  | .series xs => xs

end Samples

end FuzzyInference
