import FuzzyInference.Proofs.Numbers
import Mathlib.Algebra.Order.Field.Power
import Mathlib.Algebra.Order.Field.Rat
import Mathlib.Tactic.NormNum
import Mathlib.Tactic.Positivity

/-!
# Written doubles

Whatever a double is, the text of it is a numeral.  The point is that the digits chosen for a double
are never all zeros, so that something is left of them in front of a power of ten.
-/

namespace FuzzyInference

open Text

/-! ## Numerals from digits -/

namespace Numeral

theorem exists_digitValue? {c : Char} (h : c.isDigit = true) : ∃ d, digitValue? c = some d := by
  obtain ⟨hlow, hhigh⟩ := Char.isDigit_iff_toNat.mp h
  have hlow : 48 ≤ c.toNat := hlow
  have hhigh : c.toNat ≤ 57 := hhigh
  refine ⟨c.toNat - 48, ?_⟩
  unfold digitValue?
  dsimp only
  rw [if_pos (by omega), if_pos ⟨hlow, hhigh⟩]

/-- What follows a row of digits and does not go on with it. -/
def Ends (rest : List Char) : Prop := ∀ c ∈ rest.head?, digitValue? c = none ∧ c ≠ '_'

theorem skipLowLine_of_ne {cs : List Char} (h : ∀ c ∈ cs.head?, c ≠ '_') : skipLowLine cs = cs := by
  unfold skipLowLine
  split
  · exact absurd rfl (h '_' rfl)
  · rfl

theorem digitRun_of_ends {rest : List Char} (h : Ends rest) : digitRun rest = ([], rest) := by
  cases rest with
  | nil => simp [digitRun]
  | cons c rest =>
    unfold digitRun
    rw [(h c rfl).1]

theorem digitRun_append {cs rest : List Char} (hcs : ∀ c ∈ cs, c.isDigit = true)
    (hrest : Ends rest) : ∃ digits,
      digitRun (cs ++ rest) = (digits, rest) ∧ digits.length = cs.length := by
  induction cs with
  | nil => exact ⟨[], digitRun_of_ends hrest, rfl⟩
  | cons c cs ih =>
    obtain ⟨hc, hcs⟩ := List.forall_mem_cons.mp hcs
    obtain ⟨d, hd⟩ := exists_digitValue? hc
    obtain ⟨digits, hdigits, hlength⟩ := ih hcs
    have hskip : skipLowLine (cs ++ rest) = cs ++ rest := by
      apply skipLowLine_of_ne
      cases cs with
      | nil => exact fun e he => (hrest e he).2
      | cons e cs =>
        rintro _ ⟨⟩ rfl
        exact absurd (hcs '_' (by simp)) (by decide)
    refine ⟨d :: digits, ?_, congrArg (· + 1) hlength⟩
    rw [List.cons_append]
    unfold digitRun
    rw [hd]
    dsimp only
    rw [hskip, hdigits]

theorem exists_digitRun {whole rest : List Char} (hwhole : ∀ c ∈ whole, c.isDigit = true)
    (hne : whole ≠ []) (hrest : Ends rest) :
    ∃ d ds, digitRun (whole ++ rest) = (d :: ds, rest) := by
  obtain ⟨digits, hdigits, hlength⟩ := digitRun_append hwhole hrest
  cases digits with
  | nil => exact absurd (List.length_eq_zero_iff.mp hlength.symm) hne
  | cons d ds => exact ⟨d, ds, hdigits⟩

theorem ends_of_exponent? {cs : List Char} (h : (exponent? cs).isSome = true) :
    Ends cs ∧ ∀ c ∈ cs.head?, c ≠ '.' := by
  cases cs with
  | nil => exact ⟨by rintro _ ⟨⟩, by rintro _ ⟨⟩⟩
  | cons mark rest =>
    have hmark : mark = 'e' ∨ mark = 'E' := by
      by_contra hnot
      unfold exponent? at h
      dsimp only at h
      rw [if_neg hnot] at h
      cases h
    have hstops : (digitValue? mark = none ∧ mark ≠ '_') ∧ mark ≠ '.' := by
      rcases hmark with rfl | rfl
      · decide
      · decide
    exact ⟨fun c hc => Option.some.inj hc ▸ hstops.1, fun c hc => Option.some.inj hc ▸ hstops.2⟩

/-- An exponent is a mark, a sign and digits. -/
theorem isSome_exponent? {c : Char} {digits : List Char} (hc : c = '-' ∨ c = '+')
    (hdigits : ∀ c ∈ digits, c.isDigit = true) (hne : digits ≠ []) :
    (exponent? ('e' :: c :: digits)).isSome = true := by
  have hends : Ends [] := by rintro _ ⟨⟩
  obtain ⟨d, ds, hrun⟩ := exists_digitRun hdigits hne hends
  rw [List.append_nil] at hrun
  obtain ⟨negative, hsign⟩ : ∃ negative, sign (c :: digits) = (negative, digits) := by
    rcases hc with rfl | rfl
    · exact ⟨true, rfl⟩
    · exact ⟨false, rfl⟩
  unfold exponent?
  dsimp only
  rw [if_pos (.inl rfl), hsign]
  dsimp only
  rw [hrun]
  rfl

/-- A numeral without a sign: a digit in front, and a reading as a decimal. -/
structure Unsigned (cs : List Char) : Prop where
  head : ∃ c ∈ cs.head?, c.isDigit = true
  reads : ∀ negative, (decimal? negative cs).isSome = true

theorem exists_head?_append {whole : List Char} (hwhole : ∀ c ∈ whole, c.isDigit = true)
    (hne : whole ≠ []) (rest : List Char) :
    ∃ c ∈ (whole ++ rest).head?, c.isDigit = true := by
  cases whole with
  | nil => exact absurd rfl hne
  | cons c whole => exact ⟨c, rfl, hwhole c (by simp)⟩

/-- Digits and an exponent, which may be missing. -/
theorem Unsigned.whole {whole tail : List Char} (hwhole : ∀ c ∈ whole, c.isDigit = true)
    (hne : whole ≠ []) (htail : (exponent? tail).isSome = true) : Unsigned (whole ++ tail) := by
  obtain ⟨hends, hpoint⟩ := ends_of_exponent? htail
  obtain ⟨d, ds, hrun⟩ := exists_digitRun hwhole hne hends
  refine ⟨exists_head?_append hwhole hne tail, fun negative => ?_⟩
  unfold decimal?
  rw [hrun]
  dsimp only
  rw [if_neg (by simp), Option.isSome_map]
  split
  · exact absurd rfl (hpoint '.' rfl)
  · exact htail

/-- Digits with a point among them and an exponent, which may be missing. -/
theorem Unsigned.point {whole fraction tail : List Char}
    (hwhole : ∀ c ∈ whole, c.isDigit = true) (hne : whole ≠ [])
    (hfraction : ∀ c ∈ fraction, c.isDigit = true) (htail : (exponent? tail).isSome = true) :
    Unsigned (whole ++ '.' :: (fraction ++ tail)) := by
  have hends : Ends ('.' :: (fraction ++ tail)) := by
    rintro _ ⟨⟩
    decide
  obtain ⟨d, ds, hrun⟩ := exists_digitRun hwhole hne hends
  obtain ⟨decimals, hdecimals, -⟩ := digitRun_append hfraction (ends_of_exponent? htail).1
  refine ⟨exists_head?_append hwhole hne _, fun negative => ?_⟩
  unfold decimal?
  rw [hrun]
  simp only [hdecimals]
  rw [if_neg (by simp), Option.isSome_map]
  exact htail

theorem sign_of_digit {cs : List Char} (h : ∃ c ∈ cs.head?, c.isDigit = true) :
    sign cs = (false, cs) := by
  obtain ⟨c, hc, hdigit⟩ := h
  unfold sign
  split
  · obtain rfl := Option.some.inj hc
    exact absurd hdigit (by decide)
  · obtain rfl := Option.some.inj hc
    exact absurd hdigit (by decide)
  · rfl

theorem trimMargin_of_not_blank {cs : List Char} (h : ∀ c ∈ cs, isBlank c = false) :
    trimMargin cs = cs := by
  unfold trimMargin
  rw [dropWhile_isMargin fun c hc => h c (List.mem_of_mem_head? hc),
    dropWhile_isMargin fun c hc => h c (List.mem_reverse.mp (List.mem_of_mem_head? hc)),
    List.reverse_reverse]

theorem Unsigned.isSome_parse? {cs : List Char} (h : Unsigned cs) (negative : Bool)
    (hblank : ∀ c ∈ Decimal.Double.chars.signed negative cs, isBlank c = false) :
    (parse? (Decimal.Double.chars.signed negative cs)).isSome = true := by
  have hsign : sign (Decimal.Double.chars.signed negative cs) = (negative, cs) := by
    cases negative with
    | false => exact sign_of_digit h.head
    | true => rfl
  unfold parse?
  rw [trimMargin_of_not_blank hblank, hsign]
  dsimp only
  rw [Option.isSome_or, h.reads negative, Bool.or_true]

end Numeral

/-! ## Laid out digits -/

namespace Decimal

open Numeral (Unsigned exponent?)

theorem isDigit_digitChars (n : Nat) : ∀ c ∈ Layout.digitChars n, c.isDigit = true := fun _ hc =>
  Nat.isDigit_of_mem_toDigits (by decide) (by decide) hc

theorem isDigit_zeros (n : Nat) : ∀ c ∈ List.replicate n '0', c.isDigit = true := by
  intro c hc
  rw [List.eq_of_mem_replicate hc]
  decide

theorem isSome_exponentChars (e : Int) : (exponent? (Layout.exponentChars e)).isSome = true := by
  have hdigits := isDigit_digitChars e.natAbs
  unfold Layout.exponentChars
  dsimp only
  apply Numeral.isSome_exponent?
  · by_cases he : e < 0
    · exact .inl (if_pos he)
    · exact .inr (if_neg he)
  · split
    · exact List.forall_mem_cons.mpr ⟨by decide, hdigits⟩
    · exact hdigits
  · split
    · exact List.cons_ne_nil _ _
    · exact Nat.toDigits_ne_nil

variable {cs : List Char}

theorem unsigned_scientific (hdigits : ∀ c ∈ cs, c.isDigit = true) (hne : cs ≠ []) (power : Int) :
    Unsigned (Layout.scientific cs power) := by
  have hexponent := isSome_exponentChars power
  unfold Layout.scientific
  split
  · exact absurd rfl hne
  · exact .whole hdigits (by simp) hexponent
  · obtain ⟨hc, hrest⟩ := List.forall_mem_cons.mp hdigits
    have hpoint := Unsigned.point (List.forall_mem_singleton.mpr hc) (by simp) hrest hexponent
    exact hpoint

theorem unsigned_positional (hdigits : ∀ c ∈ cs, c.isDigit = true) (hne : cs ≠ []) (power : Int) :
    Unsigned (Layout.exact.positional cs power) := by
  have hpoint {whole fraction : List Char} (hwhole : ∀ c ∈ whole, c.isDigit = true)
      (hne : whole ≠ []) (hfraction : ∀ c ∈ fraction, c.isDigit = true) :
      Unsigned (whole ++ '.' :: fraction) := by
    have hnone : (exponent? []).isSome = true := rfl
    have h := Unsigned.point hwhole hne hfraction hnone
    rwa [List.append_nil] at h
  unfold Layout.positional
  dsimp only
  split_ifs with hpower hlong htail
  · have hzero : ∀ c ∈ ['0'], c.isDigit = true := by decide
    apply hpoint hzero (by simp)
    intro c hc
    exact (List.mem_append.mp hc).elim (isDigit_zeros _ c) (hdigits c)
  · apply hpoint
    · intro c hc
      exact (List.mem_append.mp hc).elim (hdigits c) (isDigit_zeros _ c)
    · exact List.append_ne_nil_of_left_ne_nil hne _
    · decide
  · exact absurd rfl htail
  · apply hpoint
    · exact fun c hc => hdigits c (List.mem_of_mem_take hc)
    · simpa using hne
    · exact fun c hc => hdigits c (List.mem_of_mem_drop hc)

-- The first digit of a number is no zero.
theorem dropZeros_digitChars_ne_nil {n : Nat} (h : n ≠ 0) :
    Layout.dropZeros (Layout.digitChars n) ≠ [] := by
  intro hnil
  unfold Layout.dropZeros at hnil
  have hzeros : ∀ c ∈ Layout.digitChars n, c = '0' := by
    intro c hc
    have := List.dropWhile_eq_nil_iff.mp (List.reverse_eq_nil_iff.mp hnil) c
      (List.mem_reverse.mpr hc)
    exact beq_iff_eq.mp this
  apply h
  rw [← Nat.ofDigitChars_ten_toDigits (n := n), ← Layout.digitChars,
    List.eq_replicate_of_mem hzeros, Nat.ofDigitChars_replicate_zero, Nat.mul_zero]

theorem unsigned_chars {d : Digits} (h : d.digits ≠ 0) : Unsigned (Layout.exact.chars d) := by
  have hne := dropZeros_digitChars_ne_nil h
  have hdigits : ∀ c ∈ Layout.dropZeros (Layout.digitChars d.digits), c.isDigit = true := by
    intro c hc
    unfold Layout.dropZeros at hc
    have hc := (List.dropWhile_suffix _).subset (List.mem_reverse.mp hc)
    exact isDigit_digitChars _ c (List.mem_reverse.mp hc)
  unfold Layout.chars
  dsimp only
  split
  · exact unsigned_positional hdigits hne _
  · exact unsigned_scientific hdigits hne _

/-! ## Chosen digits -/

namespace Binary

variable {b : Binary}

theorem den_ratio_pos (b : Binary) : 0 < b.ratio.2 := by
  unfold ratio
  split
  · exact Nat.one_pos
  · exact Nat.pow_pos (by decide)

theorem ratio_eq (b : Binary) : (b.ratio.1 : ℚ) = b.mantissa * 2 ^ b.exponent * b.ratio.2 := by
  unfold ratio
  split
  · rename_i h
    obtain ⟨n, hn⟩ := Int.eq_ofNat_of_zero_le h
    rw [hn]
    simp [Nat.pow_eq]
  · rename_i h
    obtain ⟨n, hn⟩ := Int.eq_ofNat_of_zero_le (a := -b.exponent) (by omega)
    rw [show b.exponent = -n by omega]
    simp [Nat.pow_eq]

theorem den_scaled_pos (b : Binary) (place : Int) : 0 < (b.scaled place).2 := by
  have hden := den_ratio_pos b
  unfold scaled
  dsimp only
  split
  · exact Nat.mul_pos hden (Nat.pow_pos (by decide))
  · exact hden

theorem scaled_eq (b : Binary) (place : Int) :
    ((b.scaled place).1 : ℚ) * 10 ^ place = b.mantissa * 2 ^ b.exponent * (b.scaled place).2 := by
  have hratio := ratio_eq b
  unfold scaled
  dsimp only
  split
  · rename_i h
    obtain ⟨n, rfl⟩ := Int.eq_ofNat_of_zero_le h
    simp [Nat.pow_eq, hratio, mul_assoc]
  · rename_i h
    obtain ⟨n, hn⟩ := Int.eq_ofNat_of_zero_le (a := -place) (by omega)
    obtain rfl : place = -n := by omega
    simp [Nat.pow_eq, hratio]

/-- The power of ten is at most the number. -/
def Reaches (b : Binary) (place : Int) : Prop := (b.scaled place).2 ≤ (b.scaled place).1

theorem reaches_iff {place : Int} :
    b.Reaches place ↔ (10 : ℚ) ^ place ≤ b.mantissa * 2 ^ b.exponent := by
  have hden : (0 : ℚ) < (b.scaled place).2 := Nat.cast_pos.mpr (den_scaled_pos b place)
  have hpower : (0 : ℚ) < 10 ^ place := by positivity
  unfold Reaches
  rw [← Nat.cast_le (α := ℚ), ← mul_le_mul_iff_left₀ hpower, scaled_eq, mul_comm,
    mul_le_mul_iff_left₀ hden]

theorem Reaches.mono {place lower : Int} (h : b.Reaches place) (hle : lower ≤ place) :
    b.Reaches lower :=
  reaches_iff.mpr ((zpow_le_zpow_right₀ (by norm_num) hle).trans (reaches_iff.mp h))

theorem num_scaled_pos (h : 0 < b.mantissa) (place : Int) : 0 < (b.scaled place).1 := by
  have hmantissa : (0 : ℚ) < b.mantissa := Nat.cast_pos.mpr h
  have hden : (0 : ℚ) < (b.scaled place).2 := Nat.cast_pos.mpr (den_scaled_pos b place)
  have hnum : (0 : ℚ) < (b.scaled place).1 * 10 ^ place := by
    rw [scaled_eq]
    positivity
  exact Nat.cast_pos.mp (pos_of_mul_pos_left hnum (by positivity))

-- Zero lies outside the interval of every positive number.
theorem covers_zero (h : 0 < b.mantissa) (place : Int) : b.covers place 0 = false := by
  have hnum := num_scaled_pos (b := { b with mantissa := 1 }) Nat.one_pos place
  have hlow : 0 < b.interval.1 := by
    unfold interval
    dsimp only
    split <;> omega
  have hpos := Nat.mul_pos hlow hnum
  unfold covers
  dsimp only
  rw [Nat.mul_zero, Nat.zero_mul]
  split
  · rw [decide_eq_false (by omega), Bool.false_and]
  · rw [decide_eq_false (by omega), Bool.false_and]

theorem nearest_ne_zero {place : Int} (h : b.Reaches place) : b.nearest place ≠ 0 := by
  have hbelow : 0 < (b.scaled place).1 / (b.scaled place).2 :=
    Nat.div_pos h (den_scaled_pos b place)
  unfold nearest neighbours
  dsimp only
  split
  · exact Nat.ne_of_gt hbelow
  · exact Nat.succ_ne_zero _

theorem search_ne_zero (hmantissa : 0 < b.mantissa) {magnitude : Int} (fuel : Nat) (count : Int)
    (h : b.Reaches (magnitude - (count + fuel))) : (b.search magnitude fuel count).digits ≠ 0 := by
  have hcovers {place : Int} {n : Nat} (hn : b.covers place n = true) : n ≠ 0 := by
    rintro rfl
    rw [covers_zero hmantissa] at hn
    cases hn
  induction fuel generalizing count with
  | zero =>
    apply nearest_ne_zero
    rwa [Int.natCast_zero, Int.add_zero] at h
  | succ fuel ih =>
    unfold search
    dsimp only
    split_ifs with hnear hfar
    · exact hcovers hnear
    · exact hcovers hfar
    · apply ih
      rwa [show count + 1 + fuel = count + (fuel + 1 : Nat) by omega]

/-! ## The estimate -/

theorem ten_zpow_le_of_pow {e l : Int} {m n : Nat} (hm : m ≠ 0)
    (hpowers : (10 ^ m : ℚ) ^ e ≤ (2 ^ n : ℚ) ^ e) (hle : n * e ≤ l * m) :
    (10 : ℚ) ^ e ≤ 2 ^ l := by
  apply (pow_le_pow_iff_left₀ (by positivity) (by positivity) hm).mp
  calc ((10 : ℚ) ^ e) ^ m = (10 ^ m : ℚ) ^ e := by rw [← zpow_natCast, zpow_comm, zpow_natCast]
    _ ≤ (2 ^ n : ℚ) ^ e := hpowers
    _ = 2 ^ (n * e) := by rw [zpow_mul, zpow_natCast]
    _ ≤ 2 ^ (l * m) := zpow_le_zpow_right₀ (by norm_num) hle
    _ = (2 ^ l) ^ m := by rw [zpow_mul, zpow_natCast]

-- A thousand is a little less than two to the tenth, and ten thousand a little more than two to the
-- thirteenth.
theorem ten_zpow_le_two_zpow {e l : Int}
    (h : 0 ≤ e ∧ 10 * e ≤ 3 * l ∨ e ≤ 0 ∧ 13 * e ≤ 4 * l) : (10 : ℚ) ^ e ≤ 2 ^ l := by
  rcases h with ⟨he, hl⟩ | ⟨he, hl⟩
  · apply ten_zpow_le_of_pow (m := 3) (n := 10) (by decide) _ (by omega)
    exact zpow_le_zpow_left₀ he (by norm_num) (by norm_num)
  · apply ten_zpow_le_of_pow (m := 4) (n := 13) (by decide) _ (by omega)
    have hinverse : (2 ^ 13 : ℚ) ^ (-e) ≤ (10 ^ 4 : ℚ) ^ (-e) :=
      zpow_le_zpow_left₀ (by omega) (by norm_num) (by norm_num)
    rw [zpow_neg, zpow_neg] at hinverse
    exact (inv_le_inv₀ (by positivity) (by positivity)).mp hinverse

/-- A positive number whose mantissa and exponent are those of a double. -/
structure IsDouble (b : Binary) : Prop where
  positive : 0 < b.mantissa
  small : b.mantissa < 2 ^ 53
  lowest : -1074 ≤ b.exponent
  highest : b.exponent ≤ 971

theorem IsDouble.reaches (h : b.IsDouble) : b.Reaches (b.magnitude - 16) := by
  have hlog : b.mantissa.log2 < 53 := (Nat.log2_lt (Nat.ne_of_gt h.positive)).mpr h.small
  have hbits : (2 : ℚ) ^ (b.exponent + b.mantissa.log2) ≤ b.mantissa * 2 ^ b.exponent := by
    have hself : ((2 ^ b.mantissa.log2 : Nat) : ℚ) ≤ b.mantissa :=
      Nat.cast_le.mpr (Nat.log2_self_le (Nat.ne_of_gt h.positive))
    rw [zpow_add₀ (by norm_num), zpow_natCast, mul_comm]
    push_cast at hself
    exact mul_le_mul_of_nonneg_right hself (by positivity)
  have hlowest := h.lowest
  have hhighest := h.highest
  unfold magnitude
  simp only [decide_eq_true_eq]
  split_ifs with hnext hfits
  · exact Reaches.mono hnext (by omega)
  · exact Reaches.mono hfits (by omega)
  -- so many places below the estimate there is room for all of its error
  · apply reaches_iff.mpr
    refine (ten_zpow_le_two_zpow ?_).trans hbits
    omega

theorem shortest_ne_zero (h : b.IsDouble) : b.shortest.digits ≠ 0 :=
  search_ne_zero h.positive 16 0 h.reaches

end Binary

theorem Double.isDouble_of_ofBits {bits : UInt64} {negative : Bool} {value : Binary}
    (h : Double.ofBits bits = .finite negative value) : value.IsDouble := by
  have hfraction : bits.toNat % hidden < hidden := Nat.mod_lt _ (by decide)
  have hhidden : hidden = 2 ^ 52 := by decide
  have hfield : bits.toNat / hidden % 0x800 < 0x800 := Nat.mod_lt _ (by decide)
  unfold ofBits at h
  dsimp only at h
  split_ifs at h with hinfinite hnan hzero hnone
  · obtain ⟨-, rfl⟩ := Double.finite.inj h
    exact ⟨Nat.pos_of_ne_zero hnone, by dsimp only; omega, Int.le_refl _, by dsimp only; omega⟩
  · obtain ⟨-, rfl⟩ := Double.finite.inj h
    constructor
    all_goals dsimp only; omega

end Decimal

/-- Every double is written as a numeral, not-a-number and the infinities with it. -/
theorem Scalar.legible_double (x : Float) : Scalar.Legible x := by
  have hblank := Decimal.not_blank_exactText x
  unfold Scalar.Legible
  show (Numeral.parse? (Decimal.exactText x).toList).isSome = true
  unfold Decimal.exactText at hblank ⊢
  rw [String.toList_ofList] at hblank ⊢
  cases hx : Decimal.Double.ofBits x.toBits with
  | nan => decide
  | infinite negative => cases negative <;> decide
  | zero negative => cases negative <;> decide +kernel
  | finite negative value =>
    rw [hx] at hblank
    have hdouble := Decimal.Double.isDouble_of_ofBits hx
    have hdigits := Decimal.Binary.shortest_ne_zero hdouble
    exact (Decimal.unsigned_chars hdigits).isSome_parse? negative hblank

end FuzzyInference
