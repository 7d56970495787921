import FuzzyInference.Scalar
import FuzzyInference.Proofs.Doubles
import FuzzyInference.Proofs.Spaced
import Mathlib.Data.List.TakeWhile
import Mathlib.Tactic.SplitIfs

/-!
# Numbers that are written

The written form of a number holds no blank, and if it reads back at all, no mark of the language.
-/

namespace FuzzyInference

open Text

/-! ## Characters of numerals -/

namespace Numeral

/-- A character that a numeral may hold between its margins. -/
def isFigure (c : Char) : Bool :=
  (digitValue? c).isSome || "+-._eE".toList.contains c || "infinityna".toList.contains c.toLower

/-- A character that a numeral may hold. -/
def isNumeric (c : Char) : Bool :=
  (digitValue? c).isSome || "+-._eE".toList.contains c || "infinityna".toList.contains c.toLower ||
    isMargin c

theorem isNumeric_of_isFigure {c : Char} (h : isFigure c = true) : isNumeric c = true := by
  unfold isNumeric
  exact (Bool.or_eq_true _ _).mpr (.inl h)

theorem isFigure_of_digit {c : Char} {d : Nat} (h : digitValue? c = some d) :
    isFigure c = true := by
  simp [isFigure, h]

theorem mem_skipLowLine {cs : List Char} {c : Char} (h : c ∈ cs) :
    c = '_' ∨ c ∈ skipLowLine cs := by
  unfold skipLowLine
  split
  · split
    · simpa using h
    · exact .inr h
  · exact .inr h

theorem figures_of_digitRun {cs : List Char} (h : ∀ c ∈ (digitRun cs).2, isFigure c = true) :
    ∀ c ∈ cs, isFigure c = true := by
  fun_induction digitRun cs with
  | case1 => exact h
  | case2 c rest hdigit => exact h
  | case3 c rest d hdigit run ih =>
    refine List.forall_mem_cons.mpr ⟨isFigure_of_digit hdigit, fun e he => ?_⟩
    rcases mem_skipLowLine he with rfl | he
    · decide
    · exact ih h e he

theorem figures_of_sign {cs : List Char} (h : ∀ c ∈ (sign cs).2, isFigure c = true) :
    ∀ c ∈ cs, isFigure c = true := by
  unfold sign at h
  split at h
  · exact List.forall_mem_cons.mpr ⟨by decide, h⟩
  · exact List.forall_mem_cons.mpr ⟨by decide, h⟩
  · exact h

theorem figures_of_exponent? {cs : List Char} {e : Int} (h : exponent? cs = some e) :
    ∀ c ∈ cs, isFigure c = true := by
  cases cs with
  | nil => simp
  | cons mark rest =>
    unfold exponent? at h
    dsimp only at h
    by_cases hmark : mark = 'e' ∨ mark = 'E'
    · rw [if_pos hmark] at h
      refine List.forall_mem_cons.mpr ⟨?_, ?_⟩
      · rcases hmark with rfl | rfl
        · decide
        · decide
      · apply figures_of_sign
        apply figures_of_digitRun
        split at h
        · rename_i hrun
          rw [hrun]
          simp
        · cases h
    · rw [if_neg hmark] at h
      cases h

theorem figures_of_decimal? {negative : Bool} {cs : List Char} {n : Numeral}
    (h : decimal? negative cs = some n) : ∀ c ∈ cs, isFigure c = true := by
  unfold decimal? at h
  dsimp only at h
  apply figures_of_digitRun
  split_ifs at h
  obtain ⟨e, he, -⟩ := Option.map_eq_some_iff.mp h
  split at he
  · rename_i rest hpoint
    rw [hpoint]
    exact List.forall_mem_cons.mpr ⟨by decide, figures_of_digitRun (figures_of_exponent? he)⟩
  · exact figures_of_exponent? he

theorem figures_of_word? {negative : Bool} {cs : List Char} {n : Numeral}
    (h : word? negative (cs.map Char.toLower) = some n) : ∀ c ∈ cs, isFigure c = true := by
  have hletters : ∀ l ∈ cs.map Char.toLower, "infinityna".toList.contains l = true := by
    unfold word? at h
    split_ifs at h with hword hnan
    · rcases hword with hword | hword <;> rw [hword] <;> decide
    · rw [hnan]
      decide
  intro c hc
  have := hletters _ (List.mem_map.mpr ⟨c, hc, rfl⟩)
  unfold isFigure
  rw [this, Bool.or_true]

-- What reads as a number consists of digits, signs and the letters of a few words.
theorem figures_of_parse? {cs : List Char} {n : Numeral} (h : parse? cs = some n) :
    ∀ c ∈ trimMargin cs, isFigure c = true := by
  apply figures_of_sign
  unfold parse? at h
  dsimp only at h
  rcases Option.or_eq_some_iff.mp h with hword | ⟨-, hdecimal⟩
  · exact figures_of_word? hword
  · exact figures_of_decimal? hdecimal

theorem dropWhile_isMargin {cs : List Char} (h : ∀ c ∈ cs.head?, isBlank c = false) :
    cs.dropWhile isMargin = cs := by
  cases cs with
  | nil => rfl
  | cons c cs => exact List.dropWhile_cons_of_neg (by simp [isMargin, h c rfl])

theorem numeric_of_trimMargin {cs : List Char} (h : ∀ c ∈ trimMargin cs, isNumeric c = true) :
    ∀ c ∈ cs, isNumeric c = true := by
  have hdrop (xs : List Char) (hxs : ∀ c ∈ xs.dropWhile isMargin, isNumeric c = true) :
      ∀ c ∈ xs, isNumeric c = true := by
    intro c hc
    rw [← List.takeWhile_append_dropWhile (p := isMargin) (l := xs), List.mem_append] at hc
    rcases hc with hc | hc
    · have := List.mem_takeWhile_imp hc
      simp [isNumeric, this]
    · exact hxs c hc
  unfold trimMargin at h
  refine hdrop cs fun c hc => hdrop (cs.dropWhile isMargin).reverse ?_ c (List.mem_reverse.mpr hc)
  intro e he
  exact h e (List.mem_reverse.mpr he)

-- Margins may stand around it.
theorem numeric_of_parse? {cs : List Char} {n : Numeral} (h : parse? cs = some n) :
    ∀ c ∈ cs, isNumeric c = true :=
  numeric_of_trimMargin fun c hc => isNumeric_of_isFigure (figures_of_parse? h c hc)

/-- The numbers of the blank characters. -/
def blankCodes : List Nat := [
  0x9, 0xA, 0xB, 0xC, 0xD, 0x1C, 0x1D, 0x1E, 0x1F, 0x20, 0x85, 0xA0, 0x1680, 0x2000, 0x2001,
  0x2002, 0x2003, 0x2004, 0x2005, 0x2006, 0x2007, 0x2008, 0x2009, 0x200A, 0x2028, 0x2029, 0x202F,
  0x205F, 0x3000]

theorem mem_blankCodes {c : Char} (h : isBlank c = true) : c.toNat ∈ blankCodes := by
  simp only [isBlank, Bool.or_eq_true, Bool.and_eq_true, beq_iff_eq, decide_eq_true_eq] at h
  simp only [blankCodes, List.mem_cons, List.not_mem_nil, or_false]
  omega

theorem not_isFigure_of_isBlank {c : Char} (h : isBlank c = true) : isFigure c = false := by
  have hall : ∀ n ∈ blankCodes, isFigure (Char.ofNat n) = false := by decide
  have hfigure := hall c.toNat (mem_blankCodes h)
  rwa [Char.ofNat_toNat] at hfigure

theorem ne_nil_of_parse? {cs : List Char} {n : Numeral} (h : parse? cs = some n) : cs ≠ [] := by
  rintro rfl
  simp [parse?, trimMargin, sign, word?, decimal?, digitRun] at h

end Numeral

/-! ## Written numbers -/

namespace Scalar

variable {α : Type}

/-- Written numbers hold no blank. -/
class PlainText (α : Type) [Scalar α] : Prop where
  not_blank : ∀ (x : α), ∀ c ∈ (text x).toList, isBlank c = false

/-- One is the only number that equals one.  Zero is not alone among the doubles: it has a sign. -/
class SoleOne (α : Type) [Scalar α] : Prop where
  eq_one : ∀ x : α, (x == 1) = true → x = 1

variable [Scalar α]

/-- The number that is read where a number has been written. -/
def reread (x : α) : α := ((Numeral.parse? (text x).toList).map ofNumeral).getD 0

/-- The written number is read as some number.  Every double is; a rational number is not where it
is written as a quotient. -/
def Legible (x : α) : Prop := (Numeral.parse? (text x).toList).isSome = true

/-- The written number is read as itself. -/
def ReadsBack (x : α) : Prop := ∃ n, Numeral.parse? (text x).toList = some n ∧ ofNumeral n = x

theorem readsBack_iff {x : α} :
    ReadsBack x ↔ (Numeral.parse? (text x).toList).map ofNumeral = some x := by
  unfold ReadsBack
  rw [Option.map_eq_some_iff]

instance [DecidableEq α] (x : α) : Decidable (ReadsBack x) := decidable_of_iff _ readsBack_iff.symm

theorem ReadsBack.legible {x : α} (h : ReadsBack x) : Legible x := by
  obtain ⟨n, hn, -⟩ := h
  unfold Legible
  rw [hn]
  rfl

theorem ReadsBack.reread_eq {x : α} (h : ReadsBack x) : reread x = x := by
  obtain ⟨n, hn, hx⟩ := h
  unfold reread
  rw [hn]
  exact hx

theorem readNumber_text {x : α} (h : Legible x) (role : Fcl.NumberRole) :
    Fcl.readNumber role (text x).toList = .ok (reread x) := by
  obtain ⟨n, hn⟩ := Option.isSome_iff_exists.mp h
  unfold Fcl.readNumber reread
  rw [hn]
  rfl

theorem Legible.isPiece [PlainText α] {x : α} (h : Legible x) : Fcl.IsPiece (text x).toList := by
  obtain ⟨n, hn⟩ := Option.isSome_iff_exists.mp h
  exact ⟨Numeral.ne_nil_of_parse? hn, PlainText.not_blank x⟩

theorem Legible.not_mem {x : α} (h : Legible x) {mark : Char}
    (hmark : Numeral.isNumeric mark = false) : mark ∉ (text x).toList := by
  obtain ⟨n, hn⟩ := Option.isSome_iff_exists.mp h
  intro hmem
  rw [Numeral.numeric_of_parse? hn mark hmem] at hmark
  cases hmark

end Scalar

/-! ## Doubles and rationals -/

theorem not_blank_of_isDigit {c : Char} (h : c.isDigit = true) : isBlank c = false := by
  obtain ⟨hlow, hhigh⟩ := Char.isDigit_iff_toNat.mp h
  have hlow : 48 ≤ c.toNat := hlow
  have hhigh : c.toNat ≤ 57 := hhigh
  simp only [isBlank, Bool.or_eq_false_iff, Bool.and_eq_false_iff, beq_eq_false_iff_ne,
    decide_eq_false_iff_not]
  omega

theorem isDigit_of_mem_repr (n : Nat) : ∀ c ∈ n.repr.toList, c.isDigit = true := by
  rw [Nat.toList_repr]
  exact fun c hc => Nat.isDigit_of_mem_toDigits (by decide) (by decide) hc

theorem not_blank_toDigits (n : Nat) : ∀ c ∈ Nat.toDigits 10 n, isBlank c = false := fun _ hc =>
  not_blank_of_isDigit (Nat.isDigit_of_mem_toDigits (by decide) (by decide) hc)

namespace Decimal

theorem not_blank_dropZeros {cs : List Char} (h : ∀ c ∈ cs, isBlank c = false) :
    ∀ c ∈ Layout.dropZeros cs, isBlank c = false := by
  intro c hc
  unfold Layout.dropZeros at hc
  rw [List.mem_reverse] at hc
  exact h c (List.mem_reverse.mp ((List.dropWhile_suffix _).subset hc))

theorem not_blank_positional (layout : Layout) {cs : List Char} (power : Int)
    (h : ∀ c ∈ cs, isBlank c = false) : ∀ c ∈ layout.positional cs power, isBlank c = false := by
  have hzeros (n : Nat) : ∀ c ∈ List.replicate n '0', isBlank c = false := by
    intro c hc
    rw [List.eq_of_mem_replicate hc]
    decide
  unfold Layout.positional
  dsimp only
  intro c hc
  -- one case for each place of the point: in front, at the end, absent, inside
  split_ifs at hc
  · simp only [List.mem_cons, List.mem_append] at hc
    rcases hc with rfl | rfl | hc | hc
    · decide
    · decide
    · exact hzeros _ c hc
    · exact h c hc
  · simp only [List.mem_cons, List.mem_append, List.not_mem_nil, or_false] at hc
    rcases hc with (hc | hc) | rfl | rfl
    · exact h c hc
    · exact hzeros _ c hc
    · decide
    · decide
  · simp only [List.append_nil, List.mem_append] at hc
    rcases hc with hc | hc
    · exact h c hc
    · exact hzeros _ c hc
  · simp only [List.mem_cons, List.mem_append] at hc
    rcases hc with hc | rfl | hc
    · exact h c (List.mem_of_mem_take hc)
    · decide
    · exact h c (List.mem_of_mem_drop hc)

theorem not_blank_exponentChars (e : Int) : ∀ c ∈ Layout.exponentChars e, isBlank c = false := by
  have hdigits := not_blank_toDigits e.natAbs
  unfold Layout.exponentChars Layout.digitChars
  dsimp only
  refine List.forall_mem_cons.mpr ⟨by decide, List.forall_mem_cons.mpr ⟨?_, ?_⟩⟩
  · split <;> decide
  · split
    · exact List.forall_mem_cons.mpr ⟨by decide, hdigits⟩
    · exact hdigits

theorem not_blank_scientific {cs : List Char} (power : Int) (h : ∀ c ∈ cs, isBlank c = false) :
    ∀ c ∈ Layout.scientific cs power, isBlank c = false := by
  intro c hc
  unfold Layout.scientific at hc
  rcases List.mem_append.mp hc with hc | hc
  · split at hc
    · cases hc
    · exact h c hc
    · simp only [List.mem_cons] at hc
      rcases hc with rfl | rfl | hc
      · exact h c (by simp)
      · decide
      · exact h c (by simp [hc])
  · exact not_blank_exponentChars power c hc

theorem not_blank_exactText (x : Float) : ∀ c ∈ (exactText x).toList, isBlank c = false := by
  have hsigned (negative : Bool) {cs : List Char} (h : ∀ c ∈ cs, isBlank c = false) :
      ∀ c ∈ Double.chars.signed negative cs, isBlank c = false := by
    unfold Double.chars.signed
    -- not a number, infinite, zero, and digits
    split
    · exact List.forall_mem_cons.mpr ⟨by decide, h⟩
    · exact h
  unfold exactText
  rw [String.toList_ofList]
  unfold Double.chars
  split
  · decide
  · exact hsigned _ (by decide)
  · exact hsigned _ (by decide)
  · apply hsigned
    have hdigits := not_blank_dropZeros (not_blank_toDigits (Binary.shortest ‹_›).digits)
    unfold Layout.chars Layout.digitChars
    dsimp only
    split
    · exact not_blank_positional _ _ hdigits
    · exact not_blank_scientific _ hdigits

end Decimal

instance : Scalar.PlainText Float := ⟨Decimal.not_blank_exactText⟩

instance : Scalar.SoleOne Float := ⟨fun _ => Double.eq_one_of_beq⟩

theorem not_blank_ratText (q : Rat) : ∀ c ∈ (ratText q).toList, isBlank c = false := by
  have hnum : ∀ c ∈ (toString q.num).toList, isBlank c = false := by
    rw [Int.toString_eq_repr, Int.repr_eq_if]
    split
    · rw [Nat.toList_repr]
      exact not_blank_toDigits _
    · rw [String.toList_append, Nat.toList_repr]
      exact List.forall_mem_cons.mpr ⟨by decide, not_blank_toDigits _⟩
  have hden : ∀ c ∈ (toString q.den).toList, isBlank c = false := by
    rw [Nat.toString_eq_repr, Nat.toList_repr]
    exact not_blank_toDigits _
  unfold ratText
  split
  · exact hnum
  · rw [String.toList_append, String.toList_append]
    intro c hc
    simp only [List.mem_append] at hc
    rcases hc with (hc | hc) | hc
    · exact hnum c hc
    · obtain rfl : c = '/' := by simpa using hc
      decide
    · exact hden c hc

instance : Scalar.PlainText Rat := ⟨not_blank_ratText⟩

instance : Scalar.SoleOne Rat := ⟨fun _ => beq_iff_eq.mp⟩

end FuzzyInference
