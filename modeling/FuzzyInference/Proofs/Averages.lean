import Mathlib.Algebra.BigOperators.Group.List.Basic
import Mathlib.Data.Rat.Cast.Order
import Mathlib.Order.Interval.Set.UnorderedInterval
import Mathlib.Tactic.Linarith
import Mathlib.Tactic.Positivity
import Mathlib.Tactic.Ring
import FuzzyInference.Scalar.Series

/-!
# Averages of rationals

The order of the additions makes no difference to exact sums.  Points that are spaced between two
ends stay between them, and so does every average of such points with weights.
-/

namespace FuzzyInference.Scalar

/-! ## Exact sums -/

theorem foldl_add_rat (xs : List Rat) (a : Rat) : xs.foldl (· + ·) a = a + xs.sum := by
  induction xs generalizing a with
  | nil => rw [List.foldl_nil, List.sum_nil, add_zero]
  | cons x xs ih => rw [List.foldl_cons, ih, List.sum_cons, add_assoc]

theorem laneSum_rat (r₀ r₁ r₂ r₃ r₄ r₅ r₆ r₇ : Rat) (xs : List Rat) :
    laneSum r₀ r₁ r₂ r₃ r₄ r₅ r₆ r₇ xs =
      r₀ + r₁ + r₂ + r₃ + r₄ + r₅ + r₆ + r₇ + xs.sum := by
  fun_induction laneSum r₀ r₁ r₂ r₃ r₄ r₅ r₆ r₇ xs with
  | case1 r₀ r₁ r₂ r₃ r₄ r₅ r₆ r₇ a b c d e f g h rest ih =>
    rw [ih]
    simp only [List.sum_cons]
    ring
  | case2 r₀ r₁ r₂ r₃ r₄ r₅ r₆ r₇ rest hrest =>
    rw [foldl_add_rat]
    ring

theorem blockSum_rat (xs : List Rat) : blockSum xs = xs.sum := by
  unfold blockSum
  split
  · rw [laneSum_rat]
    simp only [List.sum_cons]
    ring
  · exact (foldl_add_rat _ 0).trans (zero_add _)

theorem halvedSum_rat (xs : List Rat) : halvedSum xs = xs.sum := by
  fun_induction halvedSum xs with
  | case1 xs hlong cut ihfirst ihrest =>
    rw [ihfirst, ihrest, ← List.sum_append, List.take_append_drop]
  | case2 xs hshort => exact blockSum_rat xs

theorem sum_rat (xs : List Rat) : sum xs = xs.sum :=
  (zero_add _).trans (halvedSum_rat xs)

theorem length_sumsFrom {α : Type} [Scalar α] (total : α) (xs : List α) :
    (sumsFrom total xs).length = xs.length := by
  induction xs generalizing total with
  | nil => rfl
  | cons x xs ih => exact congrArg (· + 1) (ih (total + x))

theorem length_runningSums {α : Type} [Scalar α] (xs : List α) :
    (runningSums xs).length = xs.length := by
  cases xs with
  | nil => rfl
  | cons x xs => exact congrArg (· + 1) (length_sumsFrom x xs)

/-! ## Points between two ends -/

theorem mem_uIcc_of_share {a b s : Rat} (hs : s ∈ Set.Icc 0 1) :
    s * (b - a) + a ∈ Set.uIcc a b := by
  obtain ⟨hzero, hone⟩ := hs
  rcases le_total a b with hab | hab
  · rw [Set.uIcc_of_le hab]
    constructor <;> nlinarith
  · rw [Set.uIcc_of_ge hab]
    constructor <;> nlinarith

theorem mem_uIcc_of_mem_spaced {a b x : Rat} {count : Nat} (h : x ∈ spaced a b count) :
    x ∈ Set.uIcc a b := by
  match count with
  | 0 => exact absurd h List.not_mem_nil
  | 1 =>
    rw [List.mem_singleton.mp h]
    exact mem_uIcc_of_share ⟨le_rfl, zero_le_one⟩
  | n + 2 =>
    unfold spaced at h
    rcases List.mem_append.mp h with h | h
    · obtain ⟨i, hi, rfl⟩ := List.mem_map.mp h
      have hlast : (0 : Rat) < (n + 1 : Nat) := by positivity
      have hshare : (i : Rat) / (n + 1 : Nat) ∈ Set.Icc 0 1 := by
        refine ⟨by positivity, (div_le_one hlast).mpr ?_⟩
        exact_mod_cast (List.mem_range.mp hi).le
      have hpoint := mem_uIcc_of_share (a := a) (b := b) hshare
      -- the same point, be it computed from the step or from the whole width
      split
      · exact hpoint
      · rw [show (i : Rat) * ((b - a) / (n + 1 : Nat)) = i / (n + 1 : Nat) * (b - a) by ring]
        exact hpoint
    · rw [List.mem_singleton.mp h]
      exact Set.right_mem_uIcc

-- The item that is kept, unless a better one comes, is one of the items and none is better.
theorem foldl_best (better : Rat → Rat → Prop) [DecidableRel better]
    (hirrefl : ∀ x, ¬ better x x) (hasymm : ∀ x y, better x y → ¬ better y x)
    (htrans : ∀ x y z, ¬ better x y → ¬ better y z → ¬ better x z) (first : Rat) (rest : List Rat) :
    rest.foldl (fun m x => if better x m then x else m) first ∈ first :: rest ∧
      ∀ x ∈ first :: rest,
        ¬ better x (rest.foldl (fun m x => if better x m then x else m) first) := by
  induction rest generalizing first with
  | nil => exact ⟨List.mem_singleton_self first, List.forall_mem_singleton.mpr (hirrefl first)⟩
  | cons y rest ih =>
    rw [List.foldl_cons]
    by_cases hy : better y first
    · rw [if_pos hy]
      obtain ⟨hmem, hbest⟩ := ih y
      refine ⟨List.mem_cons_of_mem first hmem, List.forall_mem_cons.mpr ⟨?_, hbest⟩⟩
      exact htrans _ _ _ (hasymm y first hy) (hbest y List.mem_cons_self)
    · rw [if_neg hy]
      obtain ⟨hmem, hbest⟩ := ih first
      obtain ⟨hfirst, hrest⟩ := List.forall_mem_cons.mp hbest
      refine ⟨?_, List.forall_mem_cons.mpr
        ⟨hfirst, List.forall_mem_cons.mpr ⟨htrans _ _ _ hy hfirst, hrest⟩⟩⟩
      rcases List.mem_cons.mp hmem with h | h
      · rw [h]
        exact List.mem_cons_self
      · exact List.mem_cons_of_mem _ (List.mem_cons_of_mem y h)

theorem isLeast_least (first : Rat) (rest : List Rat) :
    IsLeast {x | x ∈ first :: rest} (least first rest) := by
  obtain ⟨hmem, hbest⟩ := foldl_best (fun x m => x < m) (fun x => lt_irrefl x)
    (fun _ _ h => h.not_gt) (fun _ _ _ h h' => not_lt.mpr ((not_lt.mp h').trans (not_lt.mp h)))
    first rest
  exact ⟨hmem, fun x hx => not_lt.mp (hbest x hx)⟩

theorem isGreatest_greatest (first : Rat) (rest : List Rat) :
    IsGreatest {x | x ∈ first :: rest} (greatest first rest) := by
  obtain ⟨hmem, hbest⟩ := foldl_best (fun x m => m < x) (fun x => lt_irrefl x)
    (fun _ _ h => h.not_gt) (fun _ _ _ h h' => not_lt.mpr ((not_lt.mp h).trans (not_lt.mp h')))
    first rest
  exact ⟨hmem, fun x hx => not_lt.mp (hbest x hx)⟩

/-! ## Weighted averages -/

-- Points without weight may lie anywhere.
theorem sum_zipWith_mem {low high : Rat} {xs ys : List Rat} (hlength : xs.length = ys.length)
    (hxs : ∀ p ∈ xs.zip ys, p.2 ≠ 0 → p.1 ∈ Set.Icc low high) (hys : ∀ y ∈ ys, 0 ≤ y) :
    (List.zipWith (· * ·) xs ys).sum ∈ Set.Icc (low * ys.sum) (high * ys.sum) := by
  induction xs generalizing ys with
  | nil =>
    rw [List.length_nil] at hlength
    rw [List.eq_nil_of_length_eq_zero hlength.symm]
    simp
  | cons x xs ih =>
    cases ys with
    | nil => cases hlength
    | cons y ys =>
      obtain ⟨hx, hxs⟩ := List.forall_mem_cons.mp hxs
      obtain ⟨hy, hys⟩ := List.forall_mem_cons.mp hys
      obtain ⟨hsumlow, hsumhigh⟩ := ih (Nat.succ.inj hlength) hxs hys
      have hfirst : x * y ∈ Set.Icc (low * y) (high * y) := by
        by_cases hzero : y = 0
        · simp [hzero]
        · obtain ⟨hlow, hhigh⟩ := hx hzero
          exact ⟨mul_le_mul_of_nonneg_right hlow hy, mul_le_mul_of_nonneg_right hhigh hy⟩
      rw [List.zipWith_cons_cons, List.sum_cons, List.sum_cons, mul_add, mul_add]
      exact ⟨add_le_add hfirst.1 hsumlow, add_le_add hfirst.2 hsumhigh⟩

/-- An average with weights that are not all zero lies between any two bounds of the points that
have weight. -/
theorem average_mem_Icc {low high : Rat} {xs ys : List Rat} (hlength : xs.length = ys.length)
    (hxs : ∀ p ∈ xs.zip ys, p.2 ≠ 0 → p.1 ∈ Set.Icc low high) (hys : ∀ y ∈ ys, 0 ≤ y)
    (hmass : 0 < ys.sum) :
    (List.zipWith (· * ·) xs ys).sum / ys.sum ∈ Set.Icc low high := by
  obtain ⟨hlow, hhigh⟩ := sum_zipWith_mem hlength hxs hys
  exact ⟨(le_div_iff₀ hmass).mpr hlow, (div_le_iff₀ hmass).mpr hhigh⟩

/-- An average of points with weights that are not all zero lies between the ends that the points
lie between. -/
theorem average_mem {a b : Rat} {xs ys : List Rat} (hlength : xs.length = ys.length)
    (hxs : ∀ x ∈ xs, x ∈ Set.uIcc a b) (hys : ∀ y ∈ ys, 0 ≤ y) (hmass : 0 < ys.sum) :
    (List.zipWith (· * ·) xs ys).sum / ys.sum ∈ Set.uIcc a b :=
  average_mem_Icc hlength (fun p hp _ => hxs p.1 (List.of_mem_zip hp).1) hys hmass

end FuzzyInference.Scalar
