import FuzzyInference.Proofs.Evaluation
import FuzzyInference.Proofs.Ranks

/-!
# Inference on ranks

Joints of conditions, activation, sums of series and crisp values have ranks that depend on the
ranks of what they are made of alone.
-/

namespace FuzzyInference

open Scalar
open Scalar.Ranked (rank Rank)
open List (Forall₂)

variable {α : Type} [Scalar α] [Regular α]

/-- The values have one rank. -/
def SameRank (a b : α) : Prop := rank a = rank b

variable {a a' b b' : α} {xs ys : List α}

/-! ## Joints and activation -/

theorem NormPair.rank_conjunction (pair : NormPair) (ha : rank a = rank a')
    (hb : rank b = rank b') : rank (pair.conjunction a b) = rank (pair.conjunction a' b') := by
  cases pair with
  | minMax =>
    show rank (minimum a b) = rank (minimum a' b')
    rw [rank_minimum, rank_minimum, ha, hb]
  | probability => exact Regular.rank_mul ha hb
  | lukasiewicz =>
    show rank (maximum 0 (a + b - 1)) = rank (maximum 0 (a' + b' - 1))
    rw [rank_maximum, rank_maximum, Regular.rank_sub (Regular.rank_add ha hb) rfl]

theorem NormPair.rank_disjunction (pair : NormPair) (ha : rank a = rank a')
    (hb : rank b = rank b') : rank (pair.disjunction a b) = rank (pair.disjunction a' b') := by
  cases pair with
  | minMax =>
    show rank (maximum a b) = rank (maximum a' b')
    rw [rank_maximum, rank_maximum, ha, hb]
  | probability =>
    exact Regular.rank_sub (Regular.rank_add ha hb) (Regular.rank_mul ha hb)
  | lukasiewicz =>
    show rank (minimum 1 (a + b)) = rank (minimum 1 (a' + b'))
    rw [rank_minimum, rank_minimum, Regular.rank_add ha hb]

theorem NormPair.rank_conjunction_comm (pair : NormPair) (a b : α) :
    rank (pair.conjunction a b) = rank (pair.conjunction b a) := by
  cases pair with
  | minMax =>
    show rank (minimum a b) = rank (minimum b a)
    rw [rank_minimum, rank_minimum, Option.map₂_comm min_comm]
  | probability => exact Regular.rank_mul_comm a b
  | lukasiewicz =>
    show rank (maximum 0 (a + b - 1)) = rank (maximum 0 (b + a - 1))
    rw [rank_maximum, rank_maximum, Regular.rank_sub (Regular.rank_add_comm a b) rfl]

theorem NormPair.rank_disjunction_comm (pair : NormPair) (a b : α) :
    rank (pair.disjunction a b) = rank (pair.disjunction b a) := by
  cases pair with
  | minMax =>
    show rank (maximum a b) = rank (maximum b a)
    rw [rank_maximum, rank_maximum, Option.map₂_comm max_comm]
  | probability =>
    exact Regular.rank_sub (Regular.rank_add_comm a b) (Regular.rank_mul_comm a b)
  | lukasiewicz =>
    show rank (minimum 1 (a + b)) = rank (minimum 1 (b + a))
    rw [rank_minimum, rank_minimum, Regular.rank_add_comm]

theorem Activation.rank_apply (activation : Activation) (ha : rank a = rank a')
    (hb : rank b = rank b') : rank (activation.apply a b) = rank (activation.apply a' b') := by
  cases activation with
  | minimum =>
    show rank (Scalar.minimum a b) = rank (Scalar.minimum a' b')
    rw [rank_minimum, rank_minimum, ha, hb]
  | product => exact Regular.rank_mul ha hb

/-! ## Sums -/

theorem rank_foldl_add (h : Forall₂ SameRank xs ys) (hab : SameRank a b) :
    SameRank (xs.foldl (· + ·) a) (ys.foldl (· + ·) b) := by
  induction h generalizing a b with
  | nil => exact hab
  | cons hxy _ ih => exact ih (Regular.rank_add hab hxy)

-- A series that has no eight items at its front is shorter than eight.
theorem length_lt_of_short {ζ : Type} {zs : List ζ}
    (hshort : ∀ a b c d e f g k more, zs = a :: b :: c :: d :: e :: f :: g :: k :: more → False) :
    zs.length < 8 := by
  by_contra hlong
  match zs with
  | a :: b :: c :: d :: e :: f :: g :: k :: more => exact hshort a b c d e f g k more rfl
  | [] | [_] | [_, _] | [_, _, _] | [_, _, _, _] | [_, _, _, _, _] | [_, _, _, _, _, _]
  | [_, _, _, _, _, _, _] => simp at hlong

theorem rank_laneSum {r₀ r₁ r₂ r₃ r₄ r₅ r₆ r₇ s₀ s₁ s₂ s₃ s₄ s₅ s₆ s₇ : α}
    (h : Forall₂ SameRank xs ys) (h₀ : SameRank r₀ s₀) (h₁ : SameRank r₁ s₁)
    (h₂ : SameRank r₂ s₂) (h₃ : SameRank r₃ s₃) (h₄ : SameRank r₄ s₄) (h₅ : SameRank r₅ s₅)
    (h₆ : SameRank r₆ s₆) (h₇ : SameRank r₇ s₇) :
    SameRank (laneSum r₀ r₁ r₂ r₃ r₄ r₅ r₆ r₇ xs) (laneSum s₀ s₁ s₂ s₃ s₄ s₅ s₆ s₇ ys) := by
  fun_induction laneSum r₀ r₁ r₂ r₃ r₄ r₅ r₆ r₇ xs
    generalizing ys s₀ s₁ s₂ s₃ s₄ s₅ s₆ s₇ with
  | case1 r₀ r₁ r₂ r₃ r₄ r₅ r₆ r₇ a b c d e f g k rest ih =>
    simp only [List.forall₂_cons_left_iff] at h
    obtain ⟨_, _, ha, ⟨_, _, hb, ⟨_, _, hc, ⟨_, _, hd, ⟨_, _, he, ⟨_, _, hf, ⟨_, _, hg,
      ⟨_, _, hk, hrest, rfl⟩, rfl⟩, rfl⟩, rfl⟩, rfl⟩, rfl⟩, rfl⟩, rfl⟩ := h
    rw [laneSum]
    exact ih hrest (Regular.rank_add h₀ ha) (Regular.rank_add h₁ hb) (Regular.rank_add h₂ hc)
      (Regular.rank_add h₃ hd) (Regular.rank_add h₄ he) (Regular.rank_add h₅ hf)
      (Regular.rank_add h₆ hg) (Regular.rank_add h₇ hk)
  | case2 r₀ r₁ r₂ r₃ r₄ r₅ r₆ r₇ rest hshort =>
    rw [laneSum_of_length_lt (h.length_eq ▸ length_lt_of_short hshort)]
    exact rank_foldl_add h (Regular.rank_add
      (Regular.rank_add (Regular.rank_add h₀ h₁) (Regular.rank_add h₂ h₃))
      (Regular.rank_add (Regular.rank_add h₄ h₅) (Regular.rank_add h₆ h₇)))

theorem rank_blockSum (h : Forall₂ SameRank xs ys) : SameRank (blockSum xs) (blockSum ys) := by
  fun_cases blockSum xs with
  | case1 a b c d e f g k rest =>
    simp only [List.forall₂_cons_left_iff] at h
    obtain ⟨_, _, ha, ⟨_, _, hb, ⟨_, _, hc, ⟨_, _, hd, ⟨_, _, he, ⟨_, _, hf, ⟨_, _, hg,
      ⟨_, _, hk, hrest, rfl⟩, rfl⟩, rfl⟩, rfl⟩, rfl⟩, rfl⟩, rfl⟩, rfl⟩ := h
    exact rank_laneSum hrest ha hb hc hd he hf hg hk
  | case2 =>
    rename_i hshort
    rw [blockSum_of_length_lt (h.length_eq ▸ length_lt_of_short hshort)]
    exact rank_foldl_add h rfl

theorem rank_halvedSum (h : Forall₂ SameRank xs ys) :
    SameRank (halvedSum xs) (halvedSum ys) := by
  -- both series are halved at the same place
  fun_induction halvedSum xs generalizing ys with
  | case1 xs hlong cut ihfirst =>
    rename_i ihrest
    rw [halvedSum.eq_def ys, if_pos (h.length_eq ▸ hlong), ← h.length_eq]
    exact Regular.rank_add (ihfirst (List.forall₂_take cut h)) (ihrest (List.forall₂_drop cut h))
  | case2 xs hshort =>
    rw [halvedSum.eq_def ys, if_neg (h.length_eq ▸ hshort)]
    exact rank_blockSum h

theorem rank_sum (h : Forall₂ SameRank xs ys) : SameRank (sum xs) (sum ys) :=
  Regular.rank_add rfl (rank_halvedSum h)

theorem rank_sumsFrom (h : Forall₂ SameRank xs ys) (hab : SameRank a b) :
    Forall₂ SameRank (sumsFrom a xs) (sumsFrom b ys) := by
  induction h generalizing a b with
  | nil => exact .nil
  | cons hxy _ ih => exact .cons (Regular.rank_add hab hxy) (ih (Regular.rank_add hab hxy))

theorem rank_runningSums (h : Forall₂ SameRank xs ys) :
    Forall₂ SameRank (runningSums xs) (runningSums ys) := by
  cases h with
  | nil => exact .nil
  | cons hxy h => exact .cons hxy (rank_sumsFrom h hxy)

theorem rank_moments (points : List α) (h : Forall₂ SameRank xs ys) :
    Forall₂ SameRank (List.zipWith (· * ·) points xs) (List.zipWith (· * ·) points ys) := by
  induction h generalizing points with
  | nil =>
    rw [List.zipWith_nil_right]
    exact .nil
  | cons hxy _ ih =>
    cases points with
    | nil => exact .nil
    | cons p points => exact .cons (Regular.rank_mul rfl hxy) (ih points)

/-! ## Crisp values -/

theorem findIdx?_of_forall₂ {p p' : α → Bool} (h : Forall₂ SameRank xs ys)
    (hp : ∀ a b, SameRank a b → p a = p' b) : xs.findIdx? p = ys.findIdx? p' := by
  induction h with
  | nil => rfl
  | cons hxy _ ih => rw [List.findIdx?_cons, List.findIdx?_cons, hp _ _ hxy, ih]

namespace OutputVariable

variable {grid grid' : Grid α} {total total' : α}

theorem rank_gravityCentre (hxs : grid.xs = grid'.xs) (hys : Forall₂ SameRank grid.ys grid'.ys)
    (htotal : SameRank total total') (hmass : ¬ total ≤ 0) :
    SameRank (gravityCentre grid total) (gravityCentre grid' total') := by
  unfold gravityCentre
  rw [hxs]
  exact Regular.rank_div (rank_sum (rank_moments grid'.xs hys)) htotal hmass

-- The point where half of the mass has been passed is found by comparisons.
theorem areaCentre_congr (hxs : grid.xs = grid'.xs) (hys : Forall₂ SameRank grid.ys grid'.ys)
    (htotal : SameRank total total') : areaCentre grid total = areaCentre grid' total' := by
  unfold areaCentre
  have hpassed : ((runningSums grid.ys).findIdx? fun s => decide (half * total < s)) =
      (runningSums grid'.ys).findIdx? fun s => decide (half * total' < s) :=
    findIdx?_of_forall₂ (rank_runningSums hys) fun a b hab =>
      decide_eq_decide.mpr (lt_congr (Regular.rank_mul rfl htotal) hab)
  rw [hpassed, hxs]

/-- The centre of a set, and whether it has mass, can be told from ranks. -/
theorem rank_centre {o o' : OutputVariable α} (hmethod : o.method = o'.method)
    (hdefault : o.defaultValue = o'.defaultValue) (hxs : grid.xs = grid'.xs)
    (hys : Forall₂ SameRank grid.ys grid'.ys) :
    (o.centre grid).2 = (o'.centre grid').2 ∧
      SameRank (o.centre grid).1 (o'.centre grid').1 := by
  have htotal := rank_sum hys
  have hmass : sum grid.ys ≤ 0 ↔ sum grid'.ys ≤ 0 := le_congr htotal rfl
  unfold centre
  dsimp only
  rw [hmethod]
  by_cases hempty : sum grid.ys ≤ 0
  · rw [if_pos hempty, if_pos (hmass.mp hempty), hdefault]
    exact ⟨rfl, rfl⟩
  · rw [if_neg hempty, if_neg (mt hmass.mpr hempty)]
    cases o'.method with
    | gravity | singletons => exact ⟨rfl, rank_gravityCentre hxs hys htotal hempty⟩
    | area => exact ⟨rfl, congrArg rank (areaCentre_congr hxs hys htotal)⟩

end OutputVariable

end FuzzyInference
