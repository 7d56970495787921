import FuzzyInference.Proofs.Doubles
import FuzzyInference.Proofs.Ranks
import Mathlib.Data.Prod.Lex

/-!
# Doubles up to the sign of zero

Doubles of one rank are one double, or they are zeros.  The sign of a zero never gets into a number
that is not a zero itself, unless a number is divided by the zero.
-/

namespace FuzzyInference.Double

open Float.Model (UnpackedFloat Format)
open Float.Model.UnpackedFloat (Sign)

/-! ## The order of ranks -/

/-- A rank in the lexicographic order. -/
def place (p : Int × Int × Int) : Int ×ₗ Int ×ₗ Int := toLex (p.1, toLex p.2)

theorem place_injective {p q : Int × Int × Int} (h : place p = place q) : p = q := by
  obtain ⟨hfirst, hrest⟩ := Prod.mk.inj (toLex.injective h)
  exact Prod.ext hfirst (toLex.injective hrest)

theorem order_eq_lt {p q : Int × Int × Int} : order p q = .lt ↔ place p < place q := by
  unfold place
  simp only [order, Ordering.then_eq_lt, compare_lt_iff_lt, compare_eq_iff_eq,
    Prod.Lex.toLex_lt_toLex]

theorem order_ne_gt {p q : Int × Int × Int} : order p q ≠ .gt ↔ place p ≤ place q := by
  rw [ne_eq, order_eq_gt, order_eq_lt, not_lt]

/-! ## Operations -/

/-- What is left of a result once it is a double. -/
def settled (u : UnpackedFloat) : UnpackedFloat :=
  UnpackedFloat.unpack .binary64 (UnpackedFloat.pack .binary64 u)

theorem eq_of_rank_infinity {u : UnpackedFloat} {s : Sign}
    (h : rank (.infinity s) = rank u) : u = .infinity s := by
  cases u with
  | notANumber => cases s <;> cases h
  | infinity t =>
    cases s with
    | negative =>
      cases t with
      | negative => rfl
      | positive => cases h
    | positive =>
      cases t with
      | negative => cases h
      | positive => rfl
  | zero t => cases s <;> cases h
  | finite t n f hn => cases s <;> cases t <;> cases h

theorem eq_of_rank_finite {u : UnpackedFloat} {s : Sign} {m : Nat} {e : Int} {hm : 0 < m}
    (h : rank (.finite s m e hm) = rank u) : u = .finite s m e hm := by
  cases u with
  | notANumber => cases s <;> cases h
  | infinity t => cases s <;> cases t <;> cases h
  | zero t => cases s <;> cases h
  | finite t n f hn =>
    -- exponents and mantissas of negative numbers are ranked the other way round
    cases s with
    | negative =>
      cases t with
      | negative =>
        obtain ⟨hexponent, hmantissa⟩ := Prod.mk.inj (Prod.mk.inj (Option.some.inj h)).2
        obtain rfl := Int.neg_inj.mp hexponent
        obtain rfl := Int.ofNat.inj (Int.neg_inj.mp hmantissa)
        rfl
      | positive => cases h
    | positive =>
      cases t with
      | negative => cases h
      | positive =>
        obtain ⟨rfl, hmantissa⟩ := Prod.mk.inj (Prod.mk.inj (Option.some.inj h)).2
        obtain rfl := Int.ofNat.inj hmantissa
        rfl

-- Only zeros have a rank that does not tell everything.
theorem eq_or_zeros_of_rank {u v : UnpackedFloat} (h : rank u = rank v) :
    v = u ∨ ∃ s t, u = .zero s ∧ v = .zero t := by
  cases u with
  | notANumber =>
    cases v with
    | notANumber => exact .inl rfl
    | infinity t => cases t <;> cases h
    | zero t => cases h
    | finite t n f hn => cases t <;> cases h
  | infinity s => exact .inl (eq_of_rank_infinity h)
  | zero s =>
    obtain ⟨t, rfl⟩ := eq_zero_of_rank h.symm
    exact .inr ⟨s, t, rfl, rfl⟩
  | finite s m e hm => exact .inl (eq_of_rank_finite h)

theorem rank_settled_zero (s : Sign) : rank (settled (.zero s)) = some (0, 0, 0) := by
  cases s <;> rfl

theorem add_swap (u v : UnpackedFloat) :
    UnpackedFloat.add .binary64 u v = UnpackedFloat.add .binary64 v u := by
  cases u with
  | notANumber => cases v <;> rfl
  | infinity s =>
    cases v with
    | infinity t => cases s <;> cases t <;> rfl
    | _ => rfl
  | zero s =>
    cases v with
    | zero t => cases s <;> cases t <;> rfl
    | _ => rfl
  | finite s m e hm =>
    cases v with
    | finite t n f hn =>
      unfold UnpackedFloat.add
      dsimp only
      rw [min_comm f e, Int.add_comm]
    | _ => rfl

theorem mul_swap (u v : UnpackedFloat) :
    UnpackedFloat.mul .binary64 u v = UnpackedFloat.mul .binary64 v u := by
  have hsign (s t : Sign) : s * t = t * s := by cases s <;> cases t <;> rfl
  cases u with
  | notANumber => cases v <;> rfl
  | infinity s =>
    cases v with
    | notANumber | zero t => rfl
    | infinity t | finite t n f hn => exact congrArg UnpackedFloat.infinity (hsign s t)
  | zero s =>
    cases v with
    | notANumber | infinity t => rfl
    | zero t | finite t n f hn => exact congrArg UnpackedFloat.zero (hsign s t)
  | finite s m e hm =>
    cases v with
    | notANumber => rfl
    | infinity t => exact congrArg UnpackedFloat.infinity (hsign s t)
    | zero t => exact congrArg UnpackedFloat.zero (hsign s t)
    | finite t n f hn =>
      unfold UnpackedFloat.mul
      dsimp only
      rw [hsign s t, Nat.mul_comm m n, Int.add_comm e f]

/-- A result that does not depend on the sign of a zero operand. -/
theorem settled_congr (op : UnpackedFloat → UnpackedFloat)
    (hop : ∀ s t, rank (settled (op (.zero s))) = rank (settled (op (.zero t))))
    {u v : UnpackedFloat} (h : rank u = rank v) :
    rank (settled (op u)) = rank (settled (op v)) := by
  rcases eq_or_zeros_of_rank h with rfl | ⟨s, t, rfl, rfl⟩
  · rfl
  · exact hop s t

theorem add_zeros (s t : Sign) (v : UnpackedFloat) :
    rank (settled (UnpackedFloat.add .binary64 (.zero s) v)) =
      rank (settled (UnpackedFloat.add .binary64 (.zero t) v)) := by
  cases v with
  | zero r => cases s <;> cases t <;> cases r <;> rfl
  | _ => rfl

theorem mul_zeros (s t : Sign) (v : UnpackedFloat) :
    rank (settled (UnpackedFloat.mul .binary64 (.zero s) v)) =
      rank (settled (UnpackedFloat.mul .binary64 (.zero t) v)) := by
  cases v with
  | zero r => exact (rank_settled_zero _).trans (rank_settled_zero _).symm
  | finite r n f hn => exact (rank_settled_zero _).trans (rank_settled_zero _).symm
  | _ => rfl

theorem sub_zeros_left (s t : Sign) (v : UnpackedFloat) :
    rank (settled (UnpackedFloat.sub .binary64 (.zero s) v)) =
      rank (settled (UnpackedFloat.sub .binary64 (.zero t) v)) := by
  cases v with
  | zero r => cases s <;> cases t <;> cases r <;> rfl
  | _ => rfl

theorem sub_zeros_right (s t : Sign) (v : UnpackedFloat) :
    rank (settled (UnpackedFloat.sub .binary64 v (.zero s))) =
      rank (settled (UnpackedFloat.sub .binary64 v (.zero t))) := by
  cases v with
  | zero r => cases s <;> cases t <;> cases r <;> rfl
  | _ => rfl

theorem div_zeros (s t : Sign) {v : UnpackedFloat} (hv : ∀ r, v ≠ .zero r) :
    rank (settled (UnpackedFloat.div .binary64 (.zero s) v)) =
      rank (settled (UnpackedFloat.div .binary64 (.zero t) v)) := by
  cases v with
  | notANumber => rfl
  | infinity r => exact (rank_settled_zero _).trans (rank_settled_zero _).symm
  | zero r => exact absurd rfl (hv r)
  | finite r n f hn => exact (rank_settled_zero _).trans (rank_settled_zero _).symm

/-! ## Doubles -/

theorem value_add (a b : Float) :
    value (a + b) = settled (UnpackedFloat.add .binary64 (value a) (value b)) := rfl

theorem value_sub (a b : Float) :
    value (a - b) = settled (UnpackedFloat.sub .binary64 (value a) (value b)) := rfl

theorem value_mul (a b : Float) :
    value (a * b) = settled (UnpackedFloat.mul .binary64 (value a) (value b)) := rfl

theorem value_div (a b : Float) :
    value (a / b) = settled (UnpackedFloat.div .binary64 (value a) (value b)) := rfl

/-- What a double is ordered by; not-a-number by nothing. -/
def rankOf (x : Float) : Option (Int ×ₗ Int ×ₗ Int) := (rank (value x)).map place

theorem rankOf_eq_some {x : Float} {q : Int ×ₗ Int ×ₗ Int} :
    rankOf x = some q ↔ ∃ p, rank (value x) = some p ∧ place p = q := Option.map_eq_some_iff

theorem rankOf_eq {x y : Float} : rankOf x = rankOf y ↔ rank (value x) = rank (value y) :=
  (Option.map_injective fun _ _ => place_injective).eq_iff

theorem rank_value_add {a a' b b' : Float} (ha : rank (value a) = rank (value a'))
    (hb : rank (value b) = rank (value b')) : rank (value (a + b)) = rank (value (a' + b')) := by
  have hleft {u v w : UnpackedFloat} (h : rank u = rank v) :
      rank (settled (UnpackedFloat.add .binary64 u w)) =
        rank (settled (UnpackedFloat.add .binary64 v w)) :=
    settled_congr (UnpackedFloat.add .binary64 · w) (fun s t => add_zeros s t w) h
  rw [value_add, value_add, hleft ha, add_swap, hleft hb, add_swap]

theorem rank_value_mul {a a' b b' : Float} (ha : rank (value a) = rank (value a'))
    (hb : rank (value b) = rank (value b')) : rank (value (a * b)) = rank (value (a' * b')) := by
  have hleft {u v w : UnpackedFloat} (h : rank u = rank v) :
      rank (settled (UnpackedFloat.mul .binary64 u w)) =
        rank (settled (UnpackedFloat.mul .binary64 v w)) :=
    settled_congr (UnpackedFloat.mul .binary64 · w) (fun s t => mul_zeros s t w) h
  rw [value_mul, value_mul, hleft ha, mul_swap, hleft hb, mul_swap]

theorem rank_value_sub {a a' b b' : Float} (ha : rank (value a) = rank (value a'))
    (hb : rank (value b) = rank (value b')) : rank (value (a - b)) = rank (value (a' - b')) := by
  rw [value_sub, value_sub]
  calc rank (settled (UnpackedFloat.sub .binary64 (value a) (value b)))
      = rank (settled (UnpackedFloat.sub .binary64 (value a') (value b))) :=
        settled_congr (UnpackedFloat.sub .binary64 · _) (fun s t => sub_zeros_left s t _) ha
    _ = rank (settled (UnpackedFloat.sub .binary64 (value a') (value b'))) :=
        settled_congr (UnpackedFloat.sub .binary64 _ ·) (fun s t => sub_zeros_right s t _) hb

-- A divisor that is not zero is known exactly.
theorem rank_value_div {a a' b b' : Float} (ha : rank (value a) = rank (value a'))
    (hb : rank (value b) = rank (value b')) (hzero : ¬ b ≤ 0) :
    rank (value (a / b)) = rank (value (a' / b')) := by
  have hne : ∀ r, value b ≠ .zero r := by
    intro r hr
    apply hzero
    refine le_iff.mpr ⟨(0, 0, 0), (0, 0, 0), ?_, rfl, by decide⟩
    rw [hr]
    rfl
  have hsame : value b' = value b := by
    rcases eq_or_zeros_of_rank hb with h | ⟨s, t, h, -⟩
    · exact h
    · exact absurd h (hne s)
  rw [value_div, value_div, hsame]
  exact settled_congr (UnpackedFloat.div .binary64 · _) (fun s t => div_zeros s t hne) ha

instance : Scalar.Regular Float where
  Rank := Int ×ₗ Int ×ₗ Int
  linearOrder := inferInstance
  rank := rankOf
  lt_iff := by
    intro a b
    simp only [lt_iff, rankOf_eq_some, order_eq_lt]
    constructor
    · rintro ⟨p, q, hp, hq, h⟩
      exact ⟨_, _, ⟨p, hp, rfl⟩, ⟨q, hq, rfl⟩, h⟩
    · rintro ⟨_, _, ⟨p, hp, rfl⟩, ⟨q, hq, rfl⟩, h⟩
      exact ⟨p, q, hp, hq, h⟩
  le_iff := by
    intro a b
    simp only [le_iff, rankOf_eq_some, order_ne_gt]
    constructor
    · rintro ⟨p, q, hp, hq, h⟩
      exact ⟨_, _, ⟨p, hp, rfl⟩, ⟨q, hq, rfl⟩, h⟩
    · rintro ⟨_, _, ⟨p, hp, rfl⟩, ⟨q, hq, rfl⟩, h⟩
      exact ⟨p, q, hp, hq, h⟩
  beq_iff := by
    intro a b
    simp only [beq_iff, rankOf_eq_some]
    constructor
    · rintro ⟨p, hp, hq⟩
      exact ⟨_, ⟨p, hp, rfl⟩, ⟨p, hq, rfl⟩⟩
    · rintro ⟨_, ⟨p, hp, rfl⟩, ⟨q, hq, h⟩⟩
      exact ⟨p, hp, by rw [hq, place_injective h]⟩
  rank_add_comm a b := rankOf_eq.mpr (by rw [value_add, value_add, add_swap])
  rank_mul_comm a b := rankOf_eq.mpr (by rw [value_mul, value_mul, mul_swap])
  rank_add ha hb := rankOf_eq.mpr (rank_value_add (rankOf_eq.mp ha) (rankOf_eq.mp hb))
  rank_sub ha hb := rankOf_eq.mpr (rank_value_sub (rankOf_eq.mp ha) (rankOf_eq.mp hb))
  rank_mul ha hb := rankOf_eq.mpr (rank_value_mul (rankOf_eq.mp ha) (rankOf_eq.mp hb))
  rank_div ha hb hzero := rankOf_eq.mpr (rank_value_div (rankOf_eq.mp ha) (rankOf_eq.mp hb) hzero)

end FuzzyInference.Double
