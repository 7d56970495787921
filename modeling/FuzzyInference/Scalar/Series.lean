import FuzzyInference.Scalar

/-!
# Series of scalars

Sums, running sums and evenly spaced points. The order of the additions is part of each definition,
because rounding depends on it.
-/

namespace FuzzyInference.Scalar

variable {α : Type} [Scalar α]

/-- Eight sums kept side by side, one for each place in a block of eight. When no full block is
left they are added in pairs, and the remaining items one by one. -/
def laneSum (r₀ r₁ r₂ r₃ r₄ r₅ r₆ r₇ : α) : List α → α
  | a :: b :: c :: d :: e :: f :: g :: h :: rest =>
    laneSum (r₀ + a) (r₁ + b) (r₂ + c) (r₃ + d) (r₄ + e) (r₅ + f) (r₆ + g) (r₇ + h) rest
  | rest => rest.foldl (· + ·) (((r₀ + r₁) + (r₂ + r₃)) + ((r₄ + r₅) + (r₆ + r₇)))

theorem laneSum_of_length_lt {xs : List α} (h : xs.length < 8) (r₀ r₁ r₂ r₃ r₄ r₅ r₆ r₇ : α) :
    laneSum r₀ r₁ r₂ r₃ r₄ r₅ r₆ r₇ xs =
      xs.foldl (· + ·) (((r₀ + r₁) + (r₂ + r₃)) + ((r₄ + r₅) + (r₆ + r₇))) := by
  fun_cases laneSum r₀ r₁ r₂ r₃ r₄ r₅ r₆ r₇ xs with
  | case1 =>
    simp only [List.length_cons] at h
    omega
  | case2 => rfl

/-- The sum of a series that is not halved. -/
def blockSum : List α → α
  | a :: b :: c :: d :: e :: f :: g :: h :: rest => laneSum a b c d e f g h rest
  | rest => rest.foldl (· + ·) 0

theorem blockSum_of_length_lt {xs : List α} (h : xs.length < 8) :
    blockSum xs = xs.foldl (· + ·) 0 := by
  fun_cases blockSum xs with
  | case1 =>
    simp only [List.length_cons] at h
    omega
  | case2 => rfl

/-- The sum of a series by halves: one of more than 128 items is cut near its middle, at a multiple
of eight, and the sums of both parts are added. -/
def halvedSum (xs : List α) : α :=
  if 128 < xs.length then
    let cut := xs.length / 2 - xs.length / 2 % 8
    halvedSum (xs.take cut) + halvedSum (xs.drop cut)
  else blockSum xs
termination_by xs.length
decreasing_by
  · simp only [List.length_take]
    omega
  · simp only [List.length_drop]
    omega

/-- The sum of a series. It is added to zero, so that a sum of negative zeros is zero without a
sign. -/
def sum (xs : List α) : α := 0 + halvedSum xs

/-- The sums `total + x₀`, `total + x₀ + x₁`, … -/
def sumsFrom (total : α) : List α → List α
  | [] => []
  | x :: xs => (total + x) :: sumsFrom (total + x) xs

/-- The sums of the beginnings of a series, the shortest first. -/
def runningSums : List α → List α
  | [] => []
  | x :: xs => x :: sumsFrom x xs

/-- `count` points at equal distances, the first at `a` and the last at `b` exactly. -/
def spaced (a b : α) (count : Nat) : List α :=
  match count with
  | 0 => []
  | 1 => [0 * (b - a) + a]
  | last + 1 =>
    let width := b - a
    let step := width / (last : α)
    (List.range last).map (fun (i : Nat) =>
      if step == 0 then (i : α) / (last : α) * width + a else (i : α) * step + a) ++ [b]

/-- The first item, unless a later one is strictly smaller. -/
def least (first : α) (rest : List α) : α := rest.foldl (fun m x => if x < m then x else m) first

/-- The first item, unless a later one is strictly larger. -/
def greatest (first : α) (rest : List α) : α := rest.foldl (fun m x => if m < x then x else m) first

end FuzzyInference.Scalar
