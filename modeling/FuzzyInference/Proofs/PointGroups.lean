import Mathlib
import FuzzyInference.Proofs.Layout
import FuzzyInference.Proofs.LineSteps
import FuzzyInference.Proofs.RespacedStatements
import FuzzyInference.Proofs.StableSort

/-!
# The points of a term

A term is read just where its points are pairs of numbers in brackets with nothing but blanks around
them.  Nothing is dropped from them and nothing is made up.
-/

namespace FuzzyInference

namespace Text

theorem trim_eq_nil {cs : List Char} : trim cs = [] ↔ Margin cs := by
  constructor
  · intro h c hc
    by_contra hblank
    have hmem := (mem_trim (by simpa using hblank) cs).mpr hc
    rw [h] at hmem
    cases hmem
  · intro h
    rw [← List.append_nil cs, trim_append_left h]
    rfl

end Text

namespace Fcl

open Text
open Point (Numbered StablySorted)

variable {α : Type} [Scalar α] {number : List Char → Option α} {cs inside rest : List Char}
  {points : List (Point α)} {p : Point α}

/-! ## Groups of points -/

/-- The number that a text is. -/
def number? (cs : List Char) : Option α := (Numeral.parse? cs).map Scalar.ofNumeral

/-- The number that a text is between its blanks. -/
def trimmedNumber? (cs : List Char) : Option α := number? (trim cs)

/-- Neither brackets nor commas. -/
def Plain (cs : List Char) : Prop := '(' ∉ cs ∧ ')' ∉ cs ∧ ',' ∉ cs

instance (cs : List Char) : Decidable (Plain cs) := by
  unfold Plain
  infer_instance

/-- Pairs of numbers in brackets, with blanks before, between and after them. -/
inductive PointGroups (number : List Char → Option α) : List Char → List (Point α) → Prop
  | done {margin : List Char} (hmargin : Margin margin) : PointGroups number margin []
  | point {margin first second rest : List Char} {p : Point α} {points : List (Point α)}
      (hmargin : Margin margin) (hfirst : Plain first) (hsecond : Plain second)
      (hx : number first = some p.x) (hy : number second = some p.y)
      (hrest : PointGroups number rest points) :
    PointGroups number (margin ++ '(' :: (first ++ ',' :: (second ++ ')' :: rest))) (p :: points)

omit [Scalar α] in
theorem PointGroups.cons_blank {c : Char} (hc : isBlank c = true)
    (h : PointGroups number cs points) : PointGroups number (c :: cs) points := by
  cases h with
  | done hmargin => exact .done (List.forall_mem_cons.mpr ⟨hc, hmargin⟩)
  | point hmargin hfirst hsecond hx hy hrest =>
    exact .point (List.forall_mem_cons.mpr ⟨hc, hmargin⟩) hfirst hsecond hx hy hrest

-- Every group brings one bracket of each kind.
omit [Scalar α] in
theorem PointGroups.count_eq (h : PointGroups number cs points) : cs.count '(' = cs.count ')' := by
  induction h with
  | done hmargin =>
    rw [List.count_eq_zero.mpr (hmargin.not_mem (by decide)),
      List.count_eq_zero.mpr (hmargin.not_mem (by decide))]
  | @point margin first second _ _ _ hmargin hfirst hsecond _ _ _ ih =>
    have hopening : margin.count '(' = 0 ∧ first.count '(' = 0 ∧ second.count '(' = 0 :=
      ⟨List.count_eq_zero.mpr (hmargin.not_mem (by decide)), List.count_eq_zero.mpr hfirst.1,
        List.count_eq_zero.mpr hsecond.1⟩
    have hclosing : margin.count ')' = 0 ∧ first.count ')' = 0 ∧ second.count ')' = 0 :=
      ⟨List.count_eq_zero.mpr (hmargin.not_mem (by decide)), List.count_eq_zero.mpr hfirst.2.1,
        List.count_eq_zero.mpr hsecond.2.1⟩
    simp [List.count_append, hopening, hclosing, ih]

/-! ## The insides of brackets -/

/-- Two numbers with a comma between them. -/
def IsPoint (number : List Char → Option α) (inside : List Char) (p : Point α) : Prop :=
  ∃ first second, inside = first ++ ',' :: second ∧ ',' ∉ first ∧ ',' ∉ second ∧
    number first = some p.x ∧ number second = some p.y

theorem eq_of_bracketed? (h : bracketed? cs = some (inside, rest)) :
    cs = inside ++ ')' :: rest ∧ '(' ∉ inside ∧ ')' ∉ inside := by
  unfold bracketed? at h
  dsimp only at h
  split at h
  · rename_i tail htail
    obtain ⟨rfl, rfl⟩ := Prod.mk.inj (Option.some.inj h)
    refine ⟨?_, fun hmem => ?_, fun hmem => ?_⟩
    · rw [← htail, List.takeWhile_append_dropWhile]
    · cases List.mem_takeWhile_imp hmem
    · cases List.mem_takeWhile_imp hmem
  · cases h

omit [Scalar α] in
theorem PointGroups.of_splitBrackets (hstray : Margin (splitBrackets cs).2)
    (hinsides : List.Forall₂ (IsPoint number) (splitBrackets cs).1 points) :
    PointGroups number cs points := by
  -- on the brackets; one that is not closed would be left over with the blanks
  fun_induction splitBrackets cs generalizing points with
  | case1 =>
    cases hinsides
    exact .done hstray
  | case2 body inside rest hfound =>
    rename_i ih
    obtain ⟨rfl, hopening, hclosing⟩ := eq_of_bracketed? hfound
    obtain ⟨p, points, hpoint, hrest, rfl⟩ := List.forall₂_cons_left_iff.mp hinsides
    obtain ⟨first, second, rfl, hfirst, hsecond, hx, hy⟩ := hpoint
    simp only [List.mem_append, List.mem_cons, not_or] at hopening hclosing
    rw [List.append_assoc, List.cons_append]
    exact @PointGroups.point _ number [] _ _ _ p points (by decide)
      ⟨hopening.1, hclosing.1, hfirst⟩ ⟨hopening.2.2, hclosing.2.2, hsecond⟩ hx hy (ih hstray hrest)
  | case3 => exact absurd (hstray '(' List.mem_cons_self) (by decide)
  | case4 c rest =>
    rename_i ih
    obtain ⟨hc, hstray⟩ := List.forall_mem_cons.mp hstray
    exact (ih hstray hinsides).cons_blank hc

omit [Scalar α] in
theorem PointGroups.insides (h : PointGroups number cs points) :
    Margin (splitBrackets cs).2 ∧ List.Forall₂ (IsPoint number) (splitBrackets cs).1 points := by
  induction h with
  | @done margin hmargin =>
    have hsplit := splitBrackets_append_left (hmargin.not_mem (by decide)) []
    rw [List.append_nil, splitBrackets.eq_1] at hsplit
    rw [hsplit, List.append_nil]
    exact ⟨hmargin, .nil⟩
  | @point margin first second rest p points hmargin hfirst hsecond hx hy _ ih =>
    have hopening : '(' ∉ first ++ ',' :: second := by simp [hfirst.1, hsecond.1]
    have hclosing : ')' ∉ first ++ ',' :: second := by simp [hfirst.2.1, hsecond.2.1]
    have hfound := bracketed?_append hopening hclosing rest
    rw [List.append_assoc, List.cons_append] at hfound
    rw [splitBrackets_append_left (hmargin.not_mem (by decide)), splitBrackets_closed hfound]
    refine ⟨List.forall_mem_append.mpr ⟨hmargin, ih.1⟩, .cons ?_ ih.2⟩
    exact ⟨first, second, rfl, hfirst.2.2, hsecond.2.2, hx, hy⟩

omit [Scalar α] in
/-- The groups are the innermost brackets, and only blanks are left without them. -/
theorem pointGroups_iff : PointGroups number cs points ↔
    Margin (splitBrackets cs).2 ∧ List.Forall₂ (IsPoint number) (splitBrackets cs).1 points :=
  ⟨PointGroups.insides, fun h => .of_splitBrackets h.1 h.2⟩

/-! ## Reading points -/

theorem readNumber_eq_ok {role : NumberRole} {a : α} :
    readNumber role cs = .ok a ↔ number? cs = some a := by
  unfold readNumber number?
  cases Numeral.parse? cs <;> simp

theorem readPoint_of_not_mem (h : ',' ∉ inside) :
    (readPoint inside : Except Problem (Point α)) =
      .error (.pointShape (String.ofList inside)) := by
  have hnone : inside.dropWhile (· != ',') = [] :=
    List.dropWhile_eq_nil_iff.mpr fun c hc => bne_iff_ne.mpr fun heq => h (heq ▸ hc)
  unfold readPoint
  rw [hnone]

theorem readPoint_eq_ok : readPoint inside = .ok p ↔ IsPoint trimmedNumber? inside p := by
  constructor
  · intro h
    by_cases hcomma : ',' ∈ inside
    · obtain ⟨first, second, rfl, hfirst⟩ := List.eq_append_cons_of_mem hcomma
      rw [readPoint_append hfirst] at h
      split at h
      · cases h
      · rename_i hsecond
        obtain ⟨x, hx, h⟩ := bind_eq_ok.mp h
        obtain ⟨y, hy, h⟩ := bind_eq_ok.mp h
        obtain rfl := Except.ok.inj h
        exact ⟨first, second, rfl, hfirst, hsecond, readNumber_eq_ok.mp hx, readNumber_eq_ok.mp hy⟩
    · rw [readPoint_of_not_mem hcomma] at h
      cases h
  · rintro ⟨first, second, rfl, hfirst, hsecond, hx, hy⟩
    rw [readPoint_append hfirst, if_neg hsecond, readNumber_eq_ok.mpr hx, readNumber_eq_ok.mpr hy]
    rfl

theorem readPoints_eq_ok :
    readPoints cs = .ok points ↔ PointGroups trimmedNumber? cs points := by
  constructor
  · intro h
    by_cases hcount : cs.count '(' = cs.count ')'
    · unfold readPoints at h
      rw [if_neg (not_not.mpr hcount)] at h
      dsimp only at h
      by_cases hstray : trim (splitBrackets cs).2 = []
      · rw [if_neg (not_not.mpr hstray)] at h
        refine pointGroups_iff.mpr ⟨trim_eq_nil.mp hstray, ?_⟩
        exact (mapM_eq_ok.mp h).imp fun _ _ => readPoint_eq_ok.mp
      · rw [if_pos hstray] at h
        cases h
    · unfold readPoints at h
      rw [if_pos hcount] at h
      cases h
  · intro h
    obtain ⟨hstray, hinsides⟩ := pointGroups_iff.mp h
    unfold readPoints
    rw [if_neg (not_not.mpr h.count_eq)]
    dsimp only
    rw [if_neg (not_not.mpr (trim_eq_nil.mpr hstray))]
    exact mapM_eq_ok.mpr (hinsides.imp fun _ _ => readPoint_eq_ok.mpr)

/-! ## Reading terms -/

theorem readTerm_eq_ok {statement name text : List Char} {t : Term α}
    (hparts : termParts? statement = some (name, text)) : readTerm statement = .ok t ↔
      ∃ points, points ≠ [] ∧ PointGroups trimmedNumber? text points ∧
        t = .ofPoints (String.ofList name) points := by
  unfold readTerm
  rw [hparts]
  dsimp only
  rw [bind_eq_ok]
  refine exists_congr fun points => ?_
  rw [readPoints_eq_ok]
  cases points with
  | nil => simp [throw, throwThe, MonadExceptOf.throw]
  | cons p points => simp [pure, Except.pure, eq_comm]

namespace Line

/-- A line with the points of a term is read just where these are one group or more, and then as
the points of the groups, from left to right.  Otherwise it is refused. -/
theorem readTerm_pointGroups [Scalar.Ranked α] {line : Line} {statement name text : List Char}
    (hstatement : line.statement = .ok statement)
    (hparts : termParts? statement = some (name, text)) :
    ((∃ t : Term α, line.judge (line.statement >>= readTerm) = .ok t) ↔
      ∃ points : List (Point α), points ≠ [] ∧ PointGroups trimmedNumber? text points) ∧
    (∀ points : List (Point α), points ≠ [] → PointGroups trimmedNumber? text points →
      ∃ t, line.judge (line.statement >>= readTerm) = .ok t ∧ t.name = String.ofList name ∧
        t.points.Perm points ∧ (Numbered points → StablySorted points t.points)) ∧
    ((¬ ∃ points : List (Point α), points ≠ [] ∧ PointGroups trimmedNumber? text points) →
      ∃ problem, line.judge (line.statement >>= readTerm (α := α)) =
        .error (line.fault problem)) := by
  have hread (t : Term α) : line.judge (line.statement >>= readTerm) = .ok t ↔
      ∃ points, points ≠ [] ∧ PointGroups trimmedNumber? text points ∧
        t = .ofPoints (String.ofList name) points := by
    rw [judge_eq_ok, hstatement]
    exact readTerm_eq_ok hparts
  have hiff : (∃ t : Term α, line.judge (line.statement >>= readTerm) = .ok t) ↔
      ∃ points : List (Point α), points ≠ [] ∧ PointGroups trimmedNumber? text points := by
    constructor
    · rintro ⟨t, ht⟩
      obtain ⟨points, hne, hgroups, -⟩ := (hread t).mp ht
      exact ⟨points, hne, hgroups⟩
    · rintro ⟨points, hne, hgroups⟩
      exact ⟨_, (hread _).mpr ⟨points, hne, hgroups, rfl⟩⟩
  refine ⟨hiff, fun points hne hgroups => ?_, fun hnone => ?_⟩
  · exact ⟨_, (hread _).mpr ⟨points, hne, hgroups, rfl⟩, rfl, Point.sort_perm points,
      Point.stablySorted_sort⟩
  · cases hresult : line.statement >>= readTerm (α := α) with
    | ok t => exact absurd (hiff.mp ⟨t, judge_eq_ok.mpr hresult⟩) hnone
    | error problem => exact ⟨problem, rfl⟩

/-- A term whose points do not stand from left to right, with a vertical step. -/
def steep : Line := .ofRaw 4 "\tTERM steep := (3, 1) (1, 0)(3, 0);".toList

theorem readTerm_pointGroups_steep :
    steep.statement = .ok "TERM steep := (3, 1) (1, 0)(3, 0)".toList ∧
    termParts? "TERM steep := (3, 1) (1, 0)(3, 0)".toList =
      some ("steep".toList, "(3, 1) (1, 0)(3, 0)".toList) ∧
    ∃ t : Term Rat, steep.judge (steep.statement >>= readTerm) = .ok t ∧
      StablySorted [⟨3, 1⟩, ⟨1, 0⟩, ⟨3, 0⟩] t.points := by
  have hstatement : steep.statement = .ok "TERM steep := (3, 1) (1, 0)(3, 0)".toList := by cbv
  have hparts : termParts? "TERM steep := (3, 1) (1, 0)(3, 0)".toList =
      some ("steep".toList, "(3, 1) (1, 0)(3, 0)".toList) := by cbv
  have hgroups : PointGroups trimmedNumber? "(3, 1) (1, 0)(3, 0)".toList
      ([⟨3, 1⟩, ⟨1, 0⟩, ⟨3, 0⟩] : List (Point Rat)) := by
    refine @PointGroups.point _ _ [] "3".toList " 1".toList _ _ _ (by decide) (by decide)
      (by decide) (by cbv) (by cbv) ?_
    refine @PointGroups.point _ _ [' '] "1".toList " 0".toList _ _ _ (by decide) (by decide)
      (by decide) (by cbv) (by cbv) ?_
    exact @PointGroups.point _ _ [] "3".toList " 0".toList [] _ _ (by decide) (by decide)
      (by decide) (by cbv) (by cbv) (.done (by decide))
  obtain ⟨t, ht, -, -, hsorted⟩ :=
    (readTerm_pointGroups hstatement hparts).2.1 _ (List.cons_ne_nil _ _) hgroups
  exact ⟨hstatement, hparts, t, ht, hsorted fun p _ => Scalar.isNaN_eq_false.mpr ⟨p.x, rfl⟩⟩

/-- A coordinate behind an information separator, which is a blank but may not stand at a
numeral. -/
def separated : Line := .ofRaw 6 "    TERM t := (\x1f1, 0);".toList

theorem readTerm_separated :
    separated.statement = .ok "TERM t := (\x1f1, 0)".toList ∧
    termParts? "TERM t := (\x1f1, 0)".toList = some (['t'], "(\x1f1, 0)".toList) ∧
    (∃ t : Term Rat, separated.judge (separated.statement >>= readTerm) = .ok t) ∧
    ¬ ∃ points : List (Point Rat), points ≠ [] ∧
      PointGroups number? "(\x1f1, 0)".toList points := by
  refine ⟨by cbv, by cbv, ⟨⟨"t", [⟨1, 0⟩], 0, [0]⟩, by cbv⟩, ?_⟩
  rintro ⟨points, hne, h⟩
  have hsplit : splitBrackets "(\x1f1, 0)".toList = (["\x1f1, 0".toList], []) := by cbv
  obtain ⟨-, hinsides⟩ := pointGroups_iff.mp h
  rw [hsplit] at hinsides
  obtain ⟨p, -, ⟨first, second, hinside, hfirst, hsecond, hx, -⟩, -⟩ :=
    List.forall₂_cons_left_iff.mp hinsides
  -- the text in front of the comma is no number
  have hcomma : "\x1f1".toList ++ ',' :: " 0".toList = first ++ ',' :: second := hinside
  obtain ⟨rfl, -, -⟩ := (List.append_cons_inj_of_notMem hfirst hsecond).mp hcomma.symm
  have hnone : (number? "\x1f1".toList : Option Rat) = none := by cbv
  cases hnone.symm.trans hx

end Line

end Fcl

end FuzzyInference
