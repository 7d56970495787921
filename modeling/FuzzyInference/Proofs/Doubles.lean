import FuzzyInference.Proofs.Bisection
import Mathlib.Algebra.Order.Group.Int
import Mathlib.Tactic.Ring

/-!
# Comparison and subtraction of doubles

Doubles that are numbers are ordered by sign, exponent and mantissa.  The difference of two that
differ is never zero, because subnormal numbers fill the gap around zero.
-/

namespace FuzzyInference.Double

open Float.Model (UnpackedFloat Format)
open Float.Model.UnpackedFloat (Sign)

/-! ## Order -/

/-- What a number is ordered by: the side of zero that it lies on, its exponent and its mantissa.
Not-a-number has no place in the order. -/
def rank : UnpackedFloat → Option (Int × Int × Int)
  | .notANumber => none
  | .infinity .negative => some (-2, 0, 0)
  | .infinity .positive => some (2, 0, 0)
  | .zero _ => some (0, 0, 0)
  | .finite .negative m e _ => some (-1, -e, -m)
  | .finite .positive m e _ => some (1, e, m)

/-- The order of ranks: the first component in which they differ decides. -/
def order (a b : Int × Int × Int) : Ordering :=
  (compare a.1 b.1).then ((compare a.2.1 b.2.1).then (compare a.2.2 b.2.2))

theorem compare_neg (a b : Int) : compare (-a) (-b) = (compare a b).swap := by
  rcases lt_trichotomy a b with h | h | h
  · rw [compare_gt_iff_gt.mpr (neg_lt_neg h), compare_lt_iff_lt.mpr h]
    rfl
  · rw [compare_eq_iff_eq.mpr h, compare_eq_iff_eq.mpr (congrArg Neg.neg h)]
    rfl
  · rw [compare_lt_iff_lt.mpr (neg_lt_neg h), compare_gt_iff_gt.mpr h]
    rfl

theorem compare_natCast (m n : Nat) : compare (m : Int) n = compare m n := by
  rcases lt_trichotomy m n with h | h | h
  · rw [compare_lt_iff_lt.mpr h, compare_lt_iff_lt.mpr (Int.ofNat_lt.mpr h)]
  · rw [compare_eq_iff_eq.mpr h, compare_eq_iff_eq.mpr (congrArg Nat.cast h)]
  · rw [compare_gt_iff_gt.mpr h, compare_gt_iff_gt.mpr (Int.ofNat_lt.mpr h)]

theorem compare_finite (s t : Sign) (m n : Nat) (e f : Int) (hm : 0 < m) (hn : 0 < n) :
    (UnpackedFloat.finite s m e hm).compare (.finite t n f hn) =
      (rank (.finite s m e hm)).bind fun a => (rank (.finite t n f hn)).map (order a) := by
  cases s with
  | negative =>
    cases t with
    | negative =>
      show some ((compare e f).then (compare m n)).swap =
        some ((compare (-e) (-f)).then (compare (-(m : Int)) (-n)))
      rw [compare_neg, compare_neg, compare_natCast, Ordering.swap_then]
    | positive => rfl
  | positive =>
    cases t with
    | negative => rfl
    | positive =>
      show some ((compare e f).then (compare m n)) =
        some ((compare e f).then (compare (m : Int) n))
      rw [compare_natCast]

theorem compare_eq (u v : UnpackedFloat) :
    u.compare v = (rank u).bind fun a => (rank v).map (order a) := by
  cases u with
  | notANumber => cases v <;> rfl
  | infinity s =>
    cases s <;> cases v with
    | infinity t => cases t <;> rfl
    | notANumber => rfl
    | zero t => rfl
    | finite t n f h => cases t <;> rfl
  | zero s =>
    cases v with
    | infinity t => cases t <;> rfl
    | notANumber => rfl
    | zero t => rfl
    | finite t n f h => cases t <;> rfl
  | finite s m e h =>
    cases v with
    | infinity t => cases s <;> cases t <;> rfl
    | notANumber => cases s <;> rfl
    | zero t => cases s <;> rfl
    | finite t n f h' => exact compare_finite s t m n e f h h'

theorem order_eq_eq {a b : Int × Int × Int} : order a b = .eq ↔ a = b := by
  simp only [order, Ordering.then_eq_eq, compare_eq_iff_eq, Prod.ext_iff]

theorem order_eq_gt {a b : Int × Int × Int} : order a b = .gt ↔ order b a = .lt := by
  simp only [order, Ordering.then_eq_gt, Ordering.then_eq_lt, compare_gt_iff_gt, compare_lt_iff_lt,
    compare_eq_iff_eq]
  omega

/-- What a double stands for. -/
def value (x : Float) : UnpackedFloat := x.toModel.unpack

theorem lt_iff {a b : Float} :
    a < b ↔ ∃ p q, rank (value a) = some p ∧ rank (value b) = some q ∧ order p q = .lt := by
  show decide ((value a).lt (value b) = true) = true ↔ _
  rw [decide_eq_true_iff, UnpackedFloat.lt, compare_eq, beq_iff_eq]
  cases rank (value a) <;> cases rank (value b) <;> simp

theorem le_iff {a b : Float} :
    a ≤ b ↔ ∃ p q, rank (value a) = some p ∧ rank (value b) = some q ∧ order p q ≠ .gt := by
  show decide ((value a).le (value b) = true) = true ↔ _
  rw [decide_eq_true_iff, UnpackedFloat.le, compare_eq]
  cases rank (value a) <;> cases rank (value b) <;> simp [Ordering.isLE_iff_ne_gt]

theorem beq_iff {a b : Float} :
    (a == b) = true ↔ ∃ p, rank (value a) = some p ∧ rank (value b) = some p := by
  show ((value a).compare (value b) == some .eq) = true ↔ _
  rw [compare_eq, beq_iff_eq]
  cases rank (value a) with
  | none => simp
  | some p =>
    cases rank (value b) with
    | none => simp
    | some q =>
      simp only [Option.bind_some, Option.map_some, Option.some.injEq, order_eq_eq, exists_eq_left']
      exact eq_comm

theorem isNaN_iff {a : Float} : Scalar.isNaN a = false ↔ ∃ p, rank (value a) = some p := by
  unfold Scalar.isNaN
  rw [Bool.not_eq_false', beq_iff]
  simp

/-! ## Numbers in their canonical form -/

/-- Mantissa and exponent of a double: the mantissa has at most 53 bits, and exactly as many unless
the exponent is the least one. -/
structure Canonical (m : Nat) (e : Int) : Prop where
  small : m < 2 ^ 53
  low : -1074 ≤ e
  normal : -1074 < e → 2 ^ 52 ≤ m

-- The bit that a normal number leaves out.
theorem toNat_implicit (v : BitVec 52) : (1#1 ++ v).toNat = 2 ^ 52 + v.toNat := by
  rw [BitVec.toNat_append, ← Nat.shiftLeft_add_eq_or_of_lt v.isLt]
  rfl

theorem canonical_unpack {b : BitVec Format.binary64.numBits} {s : Sign} {m : Nat} {e : Int}
    {h : 0 < m} (hb : UnpackedFloat.unpack .binary64 b = .finite s m e h) : Canonical m e := by
  have hbias : (Format.binary64.exponentBias : Int) + Format.binary64.mantissaBitsWithoutImplicit =
      1075 := rfl
  have hmantissa : (UnpackedFloat.unpackMantissa b).toNat < 2 ^ 52 := BitVec.isLt _
  unfold UnpackedFloat.unpack at hb
  dsimp only at hb
  rw [hbias] at hb
  by_cases hfull : UnpackedFloat.unpackExponent b = -1#_
  · rw [if_pos hfull] at hb
    by_cases hnone : UnpackedFloat.unpackMantissa b = 0#_
    · rw [if_pos hnone] at hb
      cases hb
    · rw [if_neg hnone] at hb
      cases hb
  · rw [if_neg hfull] at hb
    by_cases hzero : UnpackedFloat.unpackExponent b = 0#_
    · rw [if_pos hzero] at hb
      by_cases hnone : UnpackedFloat.unpackMantissa b = 0#_
      · rw [dif_pos hnone] at hb
        cases hb
      · rw [dif_neg hnone] at hb
        obtain ⟨-, rfl, rfl⟩ := UnpackedFloat.finite.inj hb
        have hexponent : ((UnpackedFloat.unpackExponent b).toNat : Int) = 0 := by
          rw [hzero]
          rfl
        exact ⟨by omega, by omega, by omega⟩
    · rw [if_neg hzero] at hb
      obtain ⟨-, rfl, rfl⟩ := UnpackedFloat.finite.inj hb
      have hexponent : (UnpackedFloat.unpackExponent b).toNat ≠ 0 := by
        intro hnat
        exact hzero (BitVec.eq_of_toNat_eq hnat)
      have himplicit := toNat_implicit (UnpackedFloat.unpackMantissa b)
      exact ⟨by omega, by omega, by omega⟩

/-- The number is not zero once it has been packed. -/
def Lasting (u : UnpackedFloat) : Prop :=
  ∀ s, UnpackedFloat.unpack .binary64 (UnpackedFloat.pack .binary64 u) ≠ .zero s

theorem bits_of_unpack {b : BitVec Format.binary64.numBits} {s : Sign}
    (h : UnpackedFloat.unpack .binary64 b = .zero s) :
    UnpackedFloat.unpackExponent b = 0#_ ∧ UnpackedFloat.unpackMantissa b = 0#_ := by
  unfold UnpackedFloat.unpack at h
  dsimp only at h
  by_cases hfull : UnpackedFloat.unpackExponent b = -1#_
  · rw [if_pos hfull] at h
    split at h <;> cases h
  · rw [if_neg hfull] at h
    by_cases hzero : UnpackedFloat.unpackExponent b = 0#_
    · rw [if_pos hzero] at h
      by_cases hnone : UnpackedFloat.unpackMantissa b = 0#_
      · exact ⟨hzero, hnone⟩
      · rw [dif_neg hnone] at h
        cases h
    · rw [if_neg hzero] at h
      cases h

theorem lasting_infinity (s : Sign) : Lasting (.infinity s) := by
  intro t h
  obtain ⟨hexponent, -⟩ := bits_of_unpack h
  cases s <;> exact absurd hexponent (by decide)

theorem lasting_notANumber : Lasting .notANumber := by
  intro t h
  obtain ⟨hexponent, -⟩ := bits_of_unpack h
  exact absurd hexponent (by decide)

theorem lasting_finite {s : Sign} {m : Nat} {e : Int} (h : 0 < m) (hm : m < 2 ^ 53)
    (he : -1074 ≤ e) : Lasting (.finite s m e h) := by
  intro t hzero
  obtain ⟨hexponent, hmantissa⟩ := bits_of_unpack hzero
  have hbias : e + (Format.binary64.exponentBias : Int) +
      Format.binary64.mantissaBitsWithoutImplicit = e + 1075 := by
    show e + 1023 + 52 = e + 1075
    ring
  unfold UnpackedFloat.pack at hexponent hmantissa
  dsimp only at hexponent hmantissa
  rw [hbias] at hexponent hmantissa
  by_cases hlarge : 2 ^ 11 ≤ (e + 1075).toNat + 1
  · -- too large a number becomes infinite
    rw [if_pos hlarge, UnpackedFloat.packedInfinity, UnpackedFloat.unpackExponent_packComponents]
      at hexponent
    exact absurd hexponent (by decide)
  · rw [if_neg hlarge] at hexponent hmantissa
    by_cases hnormal : m.log2 + 1 = Format.binary64.mantissaBits
    · rw [if_pos hnormal, UnpackedFloat.unpackExponent_packComponents] at hexponent
      have hmod := congrArg BitVec.toNat hexponent
      rw [BitVec.toNat_ofNat, Nat.mod_eq_of_lt (by omega)] at hmod
      have hnone : (e + 1075).toNat = 0 := hmod
      omega
    · rw [if_neg hnormal, UnpackedFloat.unpackMantissa_packComponents] at hmantissa
      have hbits : m.log2 + 1 ≠ 53 := hnormal
      have hlog : m.log2 < 53 := (Nat.log2_lt (by omega)).mpr hm
      have hsmall : m < 2 ^ 52 := (Nat.log2_lt (by omega)).mp (by omega)
      have hmod := congrArg BitVec.toNat hmantissa
      rw [BitVec.toNat_ofNat, Nat.mod_eq_of_lt hsmall] at hmod
      have hnone : m = 0 := hmod
      omega

/-! ## Rounding -/

theorem mantissa_repeat (k : Nat) (em : UnpackedFloat.ExtendedMantissa) :
    (Nat.repeat UnpackedFloat.ExtendedMantissa.shiftRightOne k em).mantissa =
      em.mantissa / 2 ^ k := by
  induction k with
  | zero => rw [Nat.repeat, pow_zero, Nat.div_one]
  | succ k ih =>
    rw [Nat.repeat, pow_succ, ← Nat.div_div_eq_div_mul, ← ih]
    rfl

theorem mantissa_ofMantissaAndAccuracy (m : Nat) (accuracy : UnpackedFloat.Accuracy) :
    (UnpackedFloat.ExtendedMantissa.ofMantissaAndAccuracy m accuracy).mantissa = m := by
  cases accuracy with
  | exact => rfl
  | inexact place => cases place <;> rfl

/-- A mantissa is halved until at most 53 bits are left. -/
theorem shift_bounds {m : Nat} {e : Int} (hm : 0 < m) (he : -1074 ≤ e)
    (accuracy : UnpackedFloat.Accuracy) :
    let shifted := UnpackedFloat.shiftToTargetExponent .binary64 m e accuracy
    0 < shifted.1.mantissa ∧ shifted.1.mantissa < 2 ^ 53 ∧ -1074 ≤ shifted.2 := by
  intro shifted
  have htarget : Format.binary64.targetExponent (Float.Model.totalExponent m e) =
      max (m.log2 + 1 + e - 53) (-1074) := rfl
  have hamount : (max ((m.log2 : Int) + 1 + e - 53) (-1074) - e).toNat = m.log2 + 1 - 53 := by omega
  have hshifted : shifted = UnpackedFloat.shiftToExponent m e accuracy
      (max (m.log2 + 1 + e - 53) (-1074)) := by
    rw [← htarget]
    rfl
  have hexponent : shifted.2 = e + ((m.log2 + 1 - 53 : Nat) : Int) := by
    rw [hshifted, UnpackedFloat.shiftToExponent, hamount]
  have hmantissa : shifted.1.mantissa = m / 2 ^ (m.log2 + 1 - 53) := by
    rw [hshifted, UnpackedFloat.shiftToExponent, hamount]
    show (Nat.repeat UnpackedFloat.ExtendedMantissa.shiftRightOne _ _).mantissa = _
    rw [mantissa_repeat, mantissa_ofMantissaAndAccuracy]
  have hself := Nat.log2_self_le (Nat.pos_iff_ne_zero.mp hm)
  have hpow : 2 ^ (m.log2 + 1 - 53) ≤ m :=
    (Nat.pow_le_pow_right (by omega) (by omega)).trans hself
  have hless : m < 2 ^ (m.log2 + 1 - 53) * 2 ^ 53 := by
    rw [← pow_add]
    exact Nat.lt_log2_self.trans_le (Nat.pow_le_pow_right (by omega) (by omega))
  refine ⟨?_, ?_, by omega⟩
  · rw [hmantissa]
    exact Nat.div_pos hpow (Nat.two_pow_pos _)
  · rw [hmantissa]
    exact Nat.div_lt_of_lt_mul hless

theorem le_roundToNearestEven (m : Nat) (accuracy : UnpackedFloat.Accuracy) :
    m ≤ accuracy.roundToNearestEven m := by
  cases accuracy with
  | exact => exact Nat.le_refl m
  | inexact place =>
    cases place with
    | lt => exact Nat.le_refl m
    | eq => exact Nat.le_add_right m _
    | gt => exact Nat.le_succ m

/-- A positive mantissa is never rounded to zero, as the exponent is not below the least one. -/
theorem lasting_roundWithAccuracy {s : Sign} {m : Nat} {e : Int} (hm : 0 < m) (he : -1074 ≤ e)
    (accuracy : UnpackedFloat.Accuracy) :
    Lasting (UnpackedFloat.roundWithAccuracy .binary64 s m e accuracy) := by
  -- two shifts with a rounding between them
  let shifted := UnpackedFloat.shiftToTargetExponent .binary64 m e accuracy
  obtain ⟨hshifted, -, hexponent⟩ := shift_bounds hm he accuracy
  have hrounded : 0 < shifted.1.roundedMantissa :=
    hshifted.trans_le (le_roundToNearestEven shifted.1.mantissa shifted.1.accuracy)
  obtain ⟨hfinal, hsmall, hlow⟩ := shift_bounds hrounded hexponent .exact
  unfold UnpackedFloat.roundWithAccuracy
  dsimp only
  rw [dif_neg hfinal.ne']
  exact lasting_finite hfinal hsmall hlow

theorem lasting_round {s : Sign} {m : Nat} {e : Int} (hm : 0 < m) (he : -1074 ≤ e) :
    Lasting (UnpackedFloat.round .binary64 s m e) := by
  have htarget : -1074 ≤ Format.binary64.targetExponent (Float.Model.totalExponent m e) :=
    Int.le_max_right _ _
  unfold UnpackedFloat.round UnpackedFloat.decreaseExponent
  dsimp only
  apply lasting_roundWithAccuracy
  · rw [Nat.shiftLeft_eq]
    exact Nat.mul_pos hm (Nat.two_pow_pos _)
  · omega

theorem lasting_normalize {m e : Int} (hm : m ≠ 0) (he : -1074 ≤ e) (s : Sign) :
    Lasting (UnpackedFloat.normalize .binary64 m e s) := by
  unfold UnpackedFloat.normalize
  rcases lt_or_gt_of_ne hm with h | h
  · rw [compare_lt_iff_lt.mpr h]
    exact lasting_round (by omega) he
  · rw [compare_gt_iff_gt.mpr h]
    exact lasting_round (by omega) he

/-! ## Differences -/

-- Numbers in canonical form that differ stand for different values.
theorem scaled_ne {m n : Nat} {e f : Int} (hm : Canonical m e) (hn : Canonical n f)
    (h : ¬ (e = f ∧ m = n)) :
    m <<< (e - min e f).toNat ≠ n <<< (f - min e f).toNat := by
  -- the number with the larger exponent has all of its bits
  have hlarger {m n : Nat} {e f : Int} (hm : Canonical m e) (hn : Canonical n f) (hlt : f < e) :
      n < m * 2 ^ (e - f).toNat := by
    have hfull := hm.normal (by have := hn.low; omega)
    have hpow : 2 ^ 1 ≤ 2 ^ (e - f).toNat := Nat.pow_le_pow_right (by omega) (by omega)
    calc n < 2 ^ 52 * 2 ^ 1 := hn.small
      _ ≤ m * 2 ^ (e - f).toNat := Nat.mul_le_mul hfull hpow
  rw [Nat.shiftLeft_eq, Nat.shiftLeft_eq]
  rcases lt_trichotomy e f with hlt | heq | hgt
  · have := hlarger hn hm hlt
    rw [min_eq_left hlt.le, sub_self, Int.toNat_zero, pow_zero, mul_one]
    omega
  · rw [heq, min_self, sub_self, Int.toNat_zero, pow_zero, mul_one, mul_one]
    exact fun hmn => h ⟨heq, hmn⟩
  · have := hlarger hm hn hgt
    rw [min_eq_right hgt.le, sub_self, Int.toNat_zero, pow_zero, mul_one]
    omega

theorem lasting_sub_finite {s t : Sign} {m n : Nat} {e f : Int} {hm : 0 < m} {hn : 0 < n}
    (hcm : Canonical m e) (hcn : Canonical n f)
    (h : rank (.finite s m e hm) ≠ rank (.finite t n f hn)) :
    Lasting (UnpackedFloat.sub .binary64 (.finite s m e hm) (.finite t n f hn)) := by
  have hsame : s = t → ¬ (e = f ∧ m = n) := by
    rintro rfl ⟨rfl, rfl⟩
    exact h rfl
  have hshift (k : Nat) (d : Int) (hk : 0 < k) : 0 < k <<< d.toNat := by
    rw [Nat.shiftLeft_eq]
    exact Nat.mul_pos hk (Nat.two_pow_pos _)
  have hm' := hshift m (e - min e f) hm
  have hn' := hshift n (f - min e f) hn
  apply lasting_normalize
  · show s.apply ((m <<< (e - min e f).toNat : Nat) : Int) -
      t.apply ((n <<< (f - min e f).toNat : Nat) : Int) ≠ 0
    cases s with
    | negative =>
      cases t with
      | negative =>
        have := scaled_ne hcm hcn (hsame rfl)
        show -((_ : Nat) : Int) - -((_ : Nat) : Int) ≠ 0
        omega
      | positive =>
        show -((_ : Nat) : Int) - ((_ : Nat) : Int) ≠ 0
        omega
    | positive =>
      cases t with
      | negative =>
        show ((_ : Nat) : Int) - -((_ : Nat) : Int) ≠ 0
        omega
      | positive =>
        have := scaled_ne hcm hcn (hsame rfl)
        show ((_ : Nat) : Int) - ((_ : Nat) : Int) ≠ 0
        omega
  · have := hcm.low
    have := hcn.low
    omega

theorem canonical_value {x : Float} {s : Sign} {m : Nat} {e : Int} {h : 0 < m}
    (hx : value x = .finite s m e h) : Canonical m e := canonical_unpack hx

theorem lasting_sub {x y : Float} (h : rank (value x) ≠ rank (value y)) :
    Lasting (UnpackedFloat.sub .binary64 (value x) (value y)) := by
  cases hx : value x with
  | notANumber => exact lasting_notANumber
  | infinity s =>
    cases value y with
    | notANumber => exact lasting_notANumber
    | infinity t =>
      show Lasting (if s == -t then .infinity s else .notANumber)
      split
      · exact lasting_infinity s
      · exact lasting_notANumber
    | zero t => exact lasting_infinity s
    | finite t n f hn => exact lasting_infinity s
  | zero s =>
    cases hy : value y with
    | notANumber => exact lasting_notANumber
    | infinity t => exact lasting_infinity (-t)
    | zero t =>
      rw [hx, hy] at h
      exact absurd rfl h
    | finite t n f hn =>
      have hcanonical := canonical_value hy
      exact lasting_finite hn hcanonical.small hcanonical.low
  | finite s m e hm =>
    have hcanonical := canonical_value hx
    cases hy : value y with
    | notANumber => exact lasting_notANumber
    | infinity t => exact lasting_infinity (-t)
    | zero t => exact lasting_finite hm hcanonical.small hcanonical.low
    | finite t n f hn =>
      rw [hx, hy] at h
      exact lasting_sub_finite hcanonical (canonical_value hy) h

theorem eq_zero_of_rank {u : UnpackedFloat} (h : rank u = some (0, 0, 0)) : ∃ s, u = .zero s := by
  cases u with
  | notANumber => cases h
  | infinity s => cases s <;> cases h
  | zero s => exact ⟨s, rfl⟩
  | finite s m e hm => cases s <;> cases h

theorem sub_beq_zero {x y : Float} (h : rank (value x) ≠ rank (value y)) :
    (x - y == 0) = false := by
  rw [← Bool.not_eq_true, beq_iff]
  rintro ⟨p, hsub, hzero⟩
  have hp : p = (0, 0, 0) := Option.some.inj (hzero.symm.trans rfl)
  rw [hp] at hsub
  obtain ⟨s, hs⟩ := eq_zero_of_rank hsub
  exact lasting_sub h s hs

instance : Scalar.Ordered Float where
  lt_of_not_le := by
    intro a b ha hb hle
    obtain ⟨p, hp⟩ := isNaN_iff.mp ha
    obtain ⟨q, hq⟩ := isNaN_iff.mp hb
    have hgt : order q p = .gt := by
      by_contra hgt
      exact hle (le_iff.mpr ⟨q, p, hq, hp, hgt⟩)
    exact lt_iff.mpr ⟨p, q, hp, hq, order_eq_gt.mp hgt⟩
  le_of_lt := by
    intro a b h
    obtain ⟨p, q, hp, hq, hlt⟩ := lt_iff.mp h
    exact le_iff.mpr ⟨p, q, hp, hq, by rw [hlt]; decide⟩
  sub_ne_zero := by
    intro a b x hb hax hbx
    obtain ⟨p, r, hp, hr, hlt⟩ := lt_iff.mp hax
    obtain ⟨q, hq⟩ := isNaN_iff.mp hb
    apply sub_beq_zero
    rw [hp, hq]
    -- equal ranks would put the right end below the value, too
    intro hsame
    rw [Option.some.inj hsame] at hq
    exact hbx (lt_iff.mpr ⟨p, r, hq, hr, hlt⟩)

/-! ## One -/

-- One is a normal number, so its mantissa and its exponent fix all of its bits.
theorem bits_of_one {b : BitVec 64} {h : 0 < 2 ^ 52}
    (hb : UnpackedFloat.unpack .binary64 b = .finite .positive (2 ^ 52) (-52) h) :
    b = 0x3FF0000000000000#64 := by
  have hbias : (Format.binary64.exponentBias : Int) + Format.binary64.mantissaBitsWithoutImplicit =
      1075 := rfl
  have hmantissa : (@UnpackedFloat.unpackMantissa .binary64 b).toNat = b.toNat % 2 ^ 52 := by
    simp [UnpackedFloat.unpackMantissa]
  have hexponent : (@UnpackedFloat.unpackExponent .binary64 b).toNat =
      b.toNat / 2 ^ 52 % 2 ^ 11 := by
    simp [UnpackedFloat.unpackExponent, Nat.shiftRight_eq_div_pow]
  have hsign : (@UnpackedFloat.unpackSign .binary64 b).toNat = b.toNat / 2 ^ 63 % 2 := by
    show (BitVec.extractLsb 63 63 b).toNat = _
    simp [Nat.shiftRight_eq_div_pow]
  have hsmall : b.toNat < 2 ^ 64 := b.isLt
  unfold UnpackedFloat.unpack at hb
  dsimp only at hb
  rw [hbias] at hb
  by_cases hfull : @UnpackedFloat.unpackExponent .binary64 b = -1#_
  · rw [if_pos hfull] at hb
    by_cases hnone : @UnpackedFloat.unpackMantissa .binary64 b = 0#_
    · rw [if_pos hnone] at hb
      cases hb
    · rw [if_neg hnone] at hb
      cases hb
  · rw [if_neg hfull] at hb
    by_cases hzero : @UnpackedFloat.unpackExponent .binary64 b = 0#_
    · rw [if_pos hzero] at hb
      by_cases hnone : @UnpackedFloat.unpackMantissa .binary64 b = 0#_
      · rw [dif_pos hnone] at hb
        cases hb
      · -- a subnormal number has a smaller mantissa
        rw [dif_neg hnone] at hb
        obtain ⟨-, hm, -⟩ := UnpackedFloat.finite.inj hb
        have := (@UnpackedFloat.unpackMantissa .binary64 b).isLt
        omega
    · rw [if_neg hzero] at hb
      obtain ⟨hs, hm, he⟩ := UnpackedFloat.finite.inj hb
      have hpositive : @UnpackedFloat.unpackSign .binary64 b = 0#1 := by
        by_contra hne
        unfold UnpackedFloat.Sign.ofBitVec at hs
        rw [if_neg hne] at hs
        cases hs
      have hbit : (@UnpackedFloat.unpackSign .binary64 b).toNat = 0 := by
        rw [hpositive]
        rfl
      have himplicit := toNat_implicit (@UnpackedFloat.unpackMantissa .binary64 b)
      refine BitVec.eq_of_toNat_eq ?_
      show b.toNat = 0x3FF0000000000000
      omega

theorem eq_of_bits {x y : Float} (h : x.toModel.toBits.toBitVec = y.toModel.toBits.toBitVec) :
    x = y := by
  obtain ⟨⟨⟨b⟩, hb⟩⟩ := x
  obtain ⟨⟨⟨c⟩, hc⟩⟩ := y
  obtain rfl : b = c := h
  rfl

/-- Only one equals one. -/
theorem eq_one_of_beq {x : Float} (h : (x == 1) = true) : x = 1 := by
  obtain ⟨p, hx, hone⟩ := beq_iff.mp h
  have hp : p = (1, -52, 2 ^ 52) := Option.some.inj (hone.symm.trans (by decide +kernel))
  rw [hp] at hx
  have hbits : x.toModel.toBits.toBitVec = 0x3FF0000000000000#64 := by
    cases hvalue : value x with
    | notANumber | zero s =>
      rw [hvalue] at hx
      cases hx
    | infinity s =>
      rw [hvalue] at hx
      cases s <;> cases hx
    | finite s m e hm =>
      rw [hvalue] at hx
      cases s with
      | negative => cases hx
      | positive =>
        obtain ⟨-, hpair⟩ := Prod.mk.inj (Option.some.inj hx)
        obtain ⟨rfl, hmantissa⟩ := Prod.mk.inj hpair
        obtain rfl : m = 2 ^ 52 := by omega
        exact bits_of_one hvalue
  have hone : (1 : Float).toModel.toBits.toBitVec = 0x3FF0000000000000#64 := by decide +kernel
  exact eq_of_bits (hbits.trans hone.symm)

end FuzzyInference.Double
