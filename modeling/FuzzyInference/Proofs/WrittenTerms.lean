import FuzzyInference.Fcl.Reader
import FuzzyInference.Proofs.Names
import FuzzyInference.Proofs.Numbers

/-!
# Declarations and terms that are written

The statements that declare a variable, describe a term or give a default value read as what has
been written, but that every number is read again from its text.
-/

namespace FuzzyInference

open Scalar (reread Legible PlainText)

variable {α : Type} [Scalar α]

/-- The point that is read where a point has been written. -/
def Point.reread (p : Point α) : Point α := ⟨Scalar.reread p.x, Scalar.reread p.y⟩

/-- The term that is read where a term has been written. -/
def Term.reread (t : Term α) : Term α := .ofPoints t.name (t.points.map Point.reread)

/-- Both coordinates of a point are read as some number. -/
def Point.Legible (p : Point α) : Prop := Scalar.Legible p.x ∧ Scalar.Legible p.y

/-- A term whose line can be read. -/
structure Term.Writable (t : Term α) : Prop where
  name : Fcl.Admitted (Fcl.spacedWords t.name.toList)
  nonempty : t.points ≠ []
  points : ∀ p ∈ t.points, p.Legible

/-- A variable whose lines can be read. -/
structure Variable.Writable (v : Variable α) : Prop where
  name : Fcl.Admitted (Fcl.spacedWords v.name.toList)
  terms : ∀ t ∈ v.terms, t.Writable

/-- The variable that is read where a variable has been written. -/
def Variable.reread (v : Variable α) : Variable α := ⟨v.name, v.terms.map Term.reread⟩

namespace Fcl

open Text

/-! ## Marks in a text -/

theorem splitAt?_append {mark : Char} {cs : List Char} (h : mark ∉ cs) (marks rest : List Char) :
    splitAt? (mark :: marks) (cs ++ (mark :: marks ++ rest)) = some (cs, rest) := by
  induction cs with
  | nil =>
    rw [List.nil_append, splitAt?.eq_def, after?_append]
  | cons c cs ih =>
    simp only [List.mem_cons, not_or] at h
    rw [List.cons_append, splitAt?.eq_def]
    dsimp only
    rw [after?, if_neg h.1]
    dsimp only
    rw [ih h.2]
    rfl

theorem Admitted.colon_not_mem {words : List (List Char)} (h : Admitted words) :
    ':' ∉ spaced words ++ [' '] := by
  intro hmem
  rcases List.mem_append.mp hmem with hmem | hmem
  · rcases mem_spaced hmem with hspace | ⟨w, hw, hc⟩
    · exact absurd hspace (by decide)
    · exact h.noColon w hw hc
  · exact absurd (List.mem_singleton.mp hmem) (by decide)

theorem declaredName_append {words : List (List Char)} (h : Admitted words) :
    declaredName (spaced words ++ " :\tREAL".toList) = .ok (String.ofList (spaced words)) := by
  have hsplit := splitAt?_append h.colon_not_mem [] "\tREAL".toList
  have htext : spaced words ++ " :\tREAL".toList =
      spaced words ++ [' '] ++ ([':'] ++ "\tREAL".toList) := by
    rw [List.append_assoc]
    rfl
  unfold declaredName
  rw [htext, hsplit]
  dsimp only
  rw [trim_concat_space h.pieces, if_neg (spaced_ne_nil h.pieces h.nonempty)]

/-! ## Points -/

/-- What stands between the brackets of a written point. -/
def inside (p : Point α) : List Char :=
  (Scalar.text p.x).toList ++ ',' :: ' ' :: (Scalar.text p.y).toList

/-- A written point. -/
def pointText (p : Point α) : List Char := '(' :: inside p ++ [')']

theorem toList_pointText (p : Point α) : p.text.toList = pointText p := by
  unfold Point.text pointText inside
  simp only [String.toList_append]
  simp

theorem not_mem_inside {p : Point α} (h : p.Legible) {mark : Char}
    (hmark : Numeral.isNumeric mark = false) (hcomma : mark ≠ ',') : mark ∉ inside p := by
  intro hmem
  have hspace : mark ≠ ' ' := by
    rintro rfl
    exact absurd hmark (by decide)
  unfold inside at hmem
  simp only [List.mem_append, List.mem_cons] at hmem
  rcases hmem with hmem | hmem | hmem | hmem
  · exact h.1.not_mem hmark hmem
  · exact hcomma hmem
  · exact hspace hmem
  · exact h.2.not_mem hmark hmem

-- The comma between the numbers is the first one.
theorem readPoint_append {first : List Char} (h : ',' ∉ first) (second : List Char) :
    (readPoint (first ++ ',' :: second) : Except Problem (Point α)) =
      if ',' ∈ second then .error (.pointShape (String.ofList (first ++ ',' :: second)))
      else do
        let x ← readNumber .x (trim first)
        let y ← readNumber .y (trim second)
        return ⟨x, y⟩ := by
  have hkeep : ∀ c ∈ first, (c != ',') = true := fun c hc => bne_iff_ne.mpr fun heq => h (heq ▸ hc)
  unfold readPoint
  rw [List.dropWhile_append_of_pos hkeep, List.dropWhile_cons_of_neg (by simp),
    List.takeWhile_append_of_pos hkeep, List.takeWhile_cons_of_neg (by simp), List.append_nil]

theorem readPoint_inside [PlainText α] {p : Point α} (h : p.Legible) :
    readPoint (inside p) = .ok p.reread := by
  obtain ⟨hx, hy⟩ := h
  have hcomma : Numeral.isNumeric ',' = false := by decide
  have hnot : ',' ∉ ' ' :: (Scalar.text p.y).toList := by
    simpa using hy.not_mem hcomma
  unfold inside
  rw [readPoint_append (hx.not_mem hcomma), if_neg hnot, trim_piece hx.isPiece,
    trim_cons_space_piece hy.isPiece, Scalar.readNumber_text hx, Scalar.readNumber_text hy]
  rfl

theorem count_pointTexts {points : List (Point α)} (h : ∀ p ∈ points, p.Legible) :
    (spaced (points.map pointText)).count '(' = (spaced (points.map pointText)).count ')' := by
  have hone : ∀ p ∈ points, (pointText p).count '(' = 1 ∧ (pointText p).count ')' = 1 := by
    intro p hp
    have hopening : (inside p).count '(' = 0 :=
      List.count_eq_zero.mpr (not_mem_inside (h p hp) (by decide) (by decide))
    have hclosing : (inside p).count ')' = 0 :=
      List.count_eq_zero.mpr (not_mem_inside (h p hp) (by decide) (by decide))
    unfold pointText
    simp [List.count_append, hopening, hclosing]
  -- every point brings one bracket of each kind
  clear h
  induction points with
  | nil => rfl
  | cons p points ih =>
    obtain ⟨hp, hpoints⟩ := List.forall_mem_cons.mp hone
    rw [List.map_cons]
    by_cases hne : points.map pointText = []
    · rw [hne, spaced_singleton, hp.1, hp.2]
    · rw [spaced_cons _ hne, List.count_append, List.count_append, hp.1, hp.2,
        List.count_cons_of_ne (by decide), List.count_cons_of_ne (by decide), ih hpoints]

theorem splitBrackets_closed {body inside rest : List Char}
    (h : bracketed? body = some (inside, rest)) :
    splitBrackets ('(' :: body) = (inside :: (splitBrackets rest).1, (splitBrackets rest).2) := by
  rw [splitBrackets.eq_2]
  split
  · rename_i hfound
    obtain ⟨rfl, rfl⟩ := Prod.mk.inj (Option.some.inj (h.symm.trans hfound))
    rfl
  · rename_i hnone
    cases h.symm.trans hnone

theorem splitBrackets_unclosed {body : List Char} (h : bracketed? body = none) :
    splitBrackets ('(' :: body) = ((splitBrackets body).1, '(' :: (splitBrackets body).2) := by
  rw [splitBrackets.eq_2]
  split
  · rename_i hfound
    cases h.symm.trans hfound
  · rfl

-- A pair of brackets that holds none ends at its own closing one.
theorem bracketed?_append {inside : List Char} (hopening : '(' ∉ inside) (hclosing : ')' ∉ inside)
    (rest : List Char) : bracketed? (inside ++ ')' :: rest) = some (inside, rest) := by
  have hkeep : ∀ c ∈ inside, (!(c == '(' || c == ')')) = true := by
    intro c hc
    have hnot : c ≠ '(' ∧ c ≠ ')' := ⟨fun h => hopening (h ▸ hc), fun h => hclosing (h ▸ hc)⟩
    simp [hnot]
  unfold bracketed?
  dsimp only
  rw [List.dropWhile_append_of_pos hkeep, List.takeWhile_append_of_pos hkeep,
    List.dropWhile_cons_of_neg (by simp), List.takeWhile_cons_of_neg (by simp), List.append_nil]
  rfl

theorem splitBrackets_pointText {p : Point α} (h : p.Legible) (rest : List Char) :
    splitBrackets (pointText p ++ rest) =
      (inside p :: (splitBrackets rest).1, (splitBrackets rest).2) := by
  have hopening : '(' ∉ inside p := not_mem_inside h (by decide) (by decide)
  have hclosing : ')' ∉ inside p := not_mem_inside h (by decide) (by decide)
  unfold pointText
  rw [List.cons_append, List.cons_append, List.append_assoc, List.singleton_append,
    splitBrackets_closed (bracketed?_append hopening hclosing rest)]

-- The brackets of written points are found again, with spaces between them.
theorem splitBrackets_pointTexts {points : List (Point α)} (h : ∀ p ∈ points, p.Legible) :
    ∃ stray, splitBrackets (spaced (points.map pointText)) = (points.map inside, stray) ∧
      trim stray = [] := by
  -- on the points; between two of them only a space is left over
  induction points with
  | nil => exact ⟨[], by simp [splitBrackets], rfl⟩
  | cons p points ih =>
    obtain ⟨hp, hpoints⟩ := List.forall_mem_cons.mp h
    obtain ⟨stray, hsplit, htrim⟩ := ih hpoints
    rw [List.map_cons]
    by_cases hne : points.map pointText = []
    · have hnil : splitBrackets ([] : List Char) = ([], []) := by simp [splitBrackets]
      have hfirst := splitBrackets_pointText hp []
      rw [List.append_nil, hnil] at hfirst
      obtain rfl : points = [] := List.map_eq_nil_iff.mp hne
      exact ⟨[], by rw [hne, spaced_singleton, hfirst]; rfl, rfl⟩
    · refine ⟨' ' :: stray, ?_, ?_⟩
      · rw [spaced_cons _ hne, splitBrackets_pointText hp, splitBrackets.eq_3 _ _ (by decide),
          hsplit]
        rfl
      · unfold trim at htrim ⊢
        rwa [trimLeft_cons_of_blank (by decide)]

theorem readPoints_pointTexts [PlainText α] {points : List (Point α)}
    (h : ∀ p ∈ points, p.Legible) :
    readPoints (spaced (points.map pointText)) = .ok (points.map Point.reread) := by
  obtain ⟨stray, hsplit, htrim⟩ := splitBrackets_pointTexts h
  have hread : (points.map inside).mapM (readPoint (α := α)) = .ok (points.map Point.reread) := by
    rw [mapM_eq_ok, List.forall₂_map_left_iff, List.forall₂_map_right_iff]
    exact List.forall₂_same.mpr fun p hp => readPoint_inside (h p hp)
  unfold readPoints
  rw [if_neg (by simpa using count_pointTexts h), hsplit]
  dsimp only
  rw [if_neg (by simpa using htrim), hread]

/-! ## Terms -/

/-- The pieces of written points. -/
def pointPieces (points : List (Point α)) : List (List Char) :=
  points.flatMap fun p =>
    ['(' :: (Scalar.text p.x).toList ++ [','], (Scalar.text p.y).toList ++ [')']]

theorem spaced_pointPieces (points : List (Point α)) :
    spaced (pointPieces points) = spaced (points.map pointText) := by
  induction points with
  | nil => rfl
  | cons p points ih =>
    have hone : spaced ['(' :: (Scalar.text p.x).toList ++ [','],
        (Scalar.text p.y).toList ++ [')']] = pointText p := by
      rw [spaced_cons _ (by simp), spaced_singleton]
      unfold pointText inside
      simp
    unfold pointPieces at ih ⊢
    rw [List.flatMap_cons, List.map_cons]
    by_cases hne : points = []
    · subst hne
      rw [List.flatMap_nil, List.append_nil, hone]
      simp
    · obtain ⟨q, points, rfl⟩ := List.exists_cons_of_ne_nil hne
      rw [spaced_append (by simp) (by simp), ih, hone, spaced_cons (pointText p) (by simp)]

theorem pieces_pointPieces [PlainText α] {points : List (Point α)} (h : ∀ p ∈ points, p.Legible) :
    ∀ piece ∈ pointPieces points, IsPiece piece ∧ Quiet piece := by
  intro piece hpiece
  obtain ⟨p, hp, hmem⟩ := List.mem_flatMap.mp hpiece
  obtain ⟨hx, hy⟩ := h p hp
  have hblankX := hx.isPiece.2
  have hblankY := hy.isPiece.2
  simp only [List.mem_cons, List.not_mem_nil, or_false] at hmem
  rcases hmem with rfl | rfl
  · refine ⟨⟨by simp, ?_⟩, ?_⟩
    · refine List.forall_mem_append.mpr ⟨List.forall_mem_cons.mpr ⟨by decide, hblankX⟩, ?_⟩
      exact List.forall_mem_singleton.mpr (by decide)
    · -- a bracket begins no comment in front of a number
      have hstar : '*' ∉ (Scalar.text p.x).toList ++ [','] := by
        simpa using hx.not_mem (by decide)
      have hquiet : Quiet ((Scalar.text p.x).toList ++ [',']) :=
        quiet_of_not_mem (by simpa using hx.not_mem (by decide))
          (by simpa using hx.not_mem (by decide))
      refine hquiet.cons fun c hc => ⟨?_, fun h => absurd h.1 (by decide)⟩
      rintro ⟨-, rfl⟩
      exact hstar (List.mem_of_mem_head? hc)
  · refine ⟨⟨by simp, ?_⟩, ?_⟩
    · exact List.forall_mem_append.mpr ⟨hblankY, List.forall_mem_singleton.mpr (by decide)⟩
    · exact quiet_of_not_mem (by simpa using hy.not_mem (by decide))
        (by simpa using hy.not_mem (by decide))

theorem pointPieces_ne_nil {points : List (Point α)} (h : points ≠ []) :
    pointPieces points ≠ [] := by
  obtain ⟨p, points, rfl⟩ := List.exists_cons_of_ne_nil h
  simp [pointPieces]

/-- The pieces of a written term, behind the keyword. -/
def termPieces (t : Term α) : List (List Char) :=
  spacedWords t.name.toList ++ [':', '='] :: pointPieces t.points

theorem pieces_termPieces [PlainText α] {t : Term α} (h : t.Writable) :
    ∀ piece ∈ termPieces t, IsPiece piece ∧ Quiet piece := by
  have hassign : IsPiece [':', '='] ∧ Quiet [':', '='] :=
    ⟨by decide, quiet_of_not_mem (by decide) (by decide)⟩
  exact List.forall_mem_append.mpr ⟨h.name.quietPieces,
    List.forall_mem_cons.mpr ⟨hassign, pieces_pointPieces h.points⟩⟩

theorem spaced_termPieces {t : Term α} (h : t.Writable) :
    spaced ("TERM".toList :: termPieces t) = "TERM".toList ++ ' ' :: (t.name.toList ++ [' '] ++
      ([':', '='] ++ ' ' :: spaced (pointPieces t.points))) := by
  unfold termPieces
  rw [spaced_cons _ (by simp), spaced_append h.name.nonempty (by simp),
    spaced_cons _ (pointPieces_ne_nil h.nonempty), spaced_spacedWords, List.append_assoc,
    List.singleton_append]

theorem toList_termLine {t : Term α} (h : t.Writable) :
    (termLine t).toList = '\t' :: spaced ("TERM".toList :: termPieces t) ++ [';'] := by
  have htexts : (t.points.map Point.text).map String.toList = t.points.map pointText := by
    rw [List.map_map]
    exact List.map_congr_left fun p _ => toList_pointText p
  rw [spaced_termPieces h, spaced_pointPieces, ← htexts]
  unfold termLine spaced
  simp only [String.toList_append, String.toList_intercalate]
  simp

-- The name of a term goes up to the marks behind it.
theorem termParts?_append {name : String} (h : Admitted (spacedWords name.toList))
    (points : List Char) :
    termParts? ("TERM".toList ++ ' ' :: (name.toList ++ [' '] ++ ([':', '='] ++ points))) =
      some (name.toList, trimLeft points) := by
  have hspaced := spaced_spacedWords name.toList
  have hcolon := h.colon_not_mem
  have hright := trimRight_concat_space h.pieces
  have hne := spaced_ne_nil h.pieces h.nonempty
  have hnoblank : ∀ c ∈ (spaced (spacedWords name.toList)).head?, isBlank c = false :=
    head?_spaced h.pieces
  rw [hspaced] at hcolon hright hne hnoblank
  obtain ⟨c, rest, hcons⟩ := List.exists_cons_of_ne_nil hne
  rw [hcons] at hcolon hright hnoblank ⊢
  have hc : isBlank c = false := hnoblank c rfl
  simp only [List.cons_append, List.mem_cons, not_or] at hcolon
  have hsplit := splitAt?_append hcolon.2 ['='] points
  -- one blank stands before the name, so it is no part of the name
  have htake (rest : List Char) : (' ' :: c :: rest).takeWhile isBlank = [' '] := by
    rw [List.takeWhile_cons_of_pos (by decide), List.takeWhile_cons_of_neg (by simp [hc])]
  have hdrop (rest : List Char) : (' ' :: c :: rest).dropWhile isBlank = c :: rest := by
    rw [List.dropWhile_cons_of_pos (by decide), List.dropWhile_cons_of_neg (by simp [hc])]
  unfold termParts?
  rw [after?_append]
  simp only [List.cons_append] at hsplit ⊢
  simp only [htake, hdrop, hsplit, List.isEmpty_cons, Bool.false_eq_true, if_false]
  rw [← List.cons_append, hright]

theorem termParts?_pieces [PlainText α] {t : Term α} (h : t.Writable) :
    termParts? (spaced ("TERM".toList :: termPieces t)) =
      some (t.name.toList, spaced (pointPieces t.points)) := by
  have hleft : trimLeft (' ' :: spaced (pointPieces t.points)) = spaced (pointPieces t.points) := by
    have hpieces := pieces_pointPieces h.points
    obtain ⟨piece, rest, hrest⟩ := List.exists_cons_of_ne_nil (pointPieces_ne_nil h.nonempty)
    rw [hrest] at hpieces ⊢
    rw [trimLeft_cons_of_blank (by decide), trimLeft_spaced (hpieces piece (by simp)).1]
  rw [spaced_termPieces h, termParts?_append h.name, hleft]

theorem readTerm_pieces [PlainText α] {t : Term α} (h : t.Writable) :
    readTerm (spaced ("TERM".toList :: termPieces t)) = .ok t.reread := by
  unfold readTerm
  rw [termParts?_pieces h]
  dsimp only
  rw [spaced_pointPieces, readPoints_pointTexts h.points]
  show (if (t.points.map Point.reread).isEmpty = true then _ else _) = _
  rw [if_neg (by simpa using h.nonempty), String.ofList_toList]
  rfl

end Fcl

end FuzzyInference
