import FuzzyInference.Fcl.Reader
import FuzzyInference.Proofs.Respaced
import FuzzyInference.Proofs.WrittenTerms

/-!
# Statements with other blanks

A statement whose names are words between single spaces says the same however long the other blanks
between its words are.
-/

namespace FuzzyInference.Fcl

open Text

variable {α : Type} [Scalar α] {cs ds : List Char}

/-! ## Numbers -/

theorem toOption_bind {ε β γ : Type} (x : Except ε β) (f : β → Except ε γ) :
    (x >>= f).toOption = x.toOption.bind fun b => (f b).toOption := by
  cases x with
  | error e => rfl
  | ok b => rfl

theorem head?_dropWhile_isBlank (cs : List Char) :
    ∀ c ∈ (cs.dropWhile isBlank).head?, isBlank c = false := by
  intro c hc
  have hnot := List.head?_dropWhile_not isBlank cs
  rwa [hc] at hnot

theorem head?_trim (cs : List Char) : ∀ c ∈ (trim cs).head?, isBlank c = false := by
  intro c hc
  -- what is dropped at the end leaves the beginning as it was
  have hprefix : trim cs <+: trimLeft cs := by
    rw [← List.reverse_suffix]
    unfold trim trimRight
    rw [List.reverse_reverse]
    exact List.dropWhile_suffix _
  obtain ⟨rest, hrest⟩ := hprefix
  refine head?_dropWhile_isBlank cs c ?_
  rw [← trimLeft, ← hrest, List.head?_append, hc]
  rfl

theorem trimMargin_trim (cs : List Char) : Numeral.trimMargin (trim cs) = trim cs := by
  unfold Numeral.trimMargin
  rw [Numeral.dropWhile_isMargin (head?_trim cs)]
  unfold trim trimRight
  rw [List.reverse_reverse, Numeral.dropWhile_isMargin (head?_dropWhile_isBlank _)]

theorem not_blank_of_parse? {cs : List Char} {n : Numeral} (h : Numeral.parse? (trim cs) = some n) :
    ∀ c ∈ trim cs, isBlank c = false := by
  intro c hc
  have hfigures := Numeral.figures_of_parse? h
  rw [trimMargin_trim] at hfigures
  by_contra hblank
  have hnot := Numeral.not_isFigure_of_isBlank (c := c) (by simpa using hblank)
  rw [hfigures c hc] at hnot
  cases hnot

-- A number holds no blank, so nothing in it can be respaced.
theorem parse?_of_respaced (h : Respaced cs ds) :
    Numeral.parse? (trim cs) = Numeral.parse? (trim ds) := by
  cases hcs : Numeral.parse? (trim cs) with
  | some n => rw [h.trim.eq_of_not_blank (not_blank_of_parse? hcs), hcs]
  | none =>
    cases hds : Numeral.parse? (trim ds) with
    | none => rfl
    | some n =>
      have hall := h.trim.all_not_blank
      have hblank : (trim ds).all (!isBlank ·) = true := by
        simpa using not_blank_of_parse? hds
      rw [← hall] at hblank
      rw [h.trim.eq_of_not_blank (by simpa using hblank), hcs] at hds
      cases hds

theorem readNumber_of_respaced (role : NumberRole) (h : Respaced cs ds) :
    (readNumber role (trim cs) : Except Problem α).toOption =
      (readNumber role (trim ds)).toOption := by
  unfold readNumber
  rw [parse?_of_respaced h]
  cases Numeral.parse? (trim ds) with
  | none => rfl
  | some n => rfl

/-! ## Points -/

theorem toOption_mapM {ε β γ : Type} {f : β → Except ε γ} {xs ys : List β}
    (h : List.Forall₂ (fun x y => (f x).toOption = (f y).toOption) xs ys) :
    (xs.mapM f).toOption = (ys.mapM f).toOption := by
  induction h with
  | nil => rfl
  | cons hfirst _ ih =>
    rw [List.mapM_cons, List.mapM_cons, toOption_bind, toOption_bind, hfirst]
    refine congrArg _ (funext fun c => ?_)
    rw [toOption_bind, toOption_bind, ih]

-- A comma is no blank, so the numbers of a point keep their places.
theorem readPoint_of_respaced (h : Respaced cs ds) :
    (readPoint cs : Except Problem (Point α)).toOption = (readPoint ds).toOption := by
  have hcomma := bne_of_isBlank (m := ',') (by decide)
  unfold readPoint
  rcases h.cut hcomma with ⟨hcs, hds⟩ | ⟨c, second, second', hc, -, hcs, hds, hsecond⟩
  · rw [hcs, hds]
    rfl
  · rw [hcs, hds]
    dsimp only
    by_cases hmore : ',' ∈ second
    · rw [if_pos hmore, if_pos ((hsecond.mem_iff (by decide)).mp hmore)]
      rfl
    · rw [if_neg hmore, if_neg (mt (hsecond.mem_iff (by decide)).mpr hmore), toOption_bind,
        toOption_bind, readNumber_of_respaced .x (h.takeWhile_of_blank hcomma)]
      refine congrArg _ (funext fun x => ?_)
      rw [toOption_bind, toOption_bind, readNumber_of_respaced .y hsecond]

theorem bracketed?_of_respaced (h : Respaced cs ds) :
    Option.Rel RespacedParts (bracketed? cs) (bracketed? ds) := by
  have hblank : ∀ b, isBlank b = true → (!(b == '(' || b == ')')) = true := by
    intro b hb
    have hopening := bne_of_isBlank (m := '(') (by decide) b hb
    have hclosing := bne_of_isBlank (m := ')') (by decide) b hb
    simp [bne_iff_ne.mp hopening, bne_iff_ne.mp hclosing]
  unfold bracketed?
  dsimp only
  rcases h.cut hblank with ⟨hcs, hds⟩ | ⟨c, rest, rest', -, -, hcs, hds, hrest⟩
  · rw [hcs, hds]
    exact .none
  · rw [hcs, hds]
    by_cases hclosing : c = ')'
    · subst hclosing
      exact .some ⟨h.takeWhile_of_blank hblank, hrest⟩
    · split
      · rename_i heq
        exact absurd (List.cons.inj heq).1 hclosing
      · split
        · rename_i heq
          exact absurd (List.cons.inj heq).1 hclosing
        · exact .none

theorem splitBrackets_append_left {head : List Char} (h : '(' ∉ head) (cs : List Char) :
    splitBrackets (head ++ cs) = ((splitBrackets cs).1, head ++ (splitBrackets cs).2) := by
  induction head with
  | nil => rfl
  | cons c head ih =>
    simp only [List.mem_cons, not_or] at h
    rw [List.cons_append, splitBrackets.eq_3 _ _ fun hopening => absurd hopening.symm h.1, ih h.2]
    rfl

theorem splitBrackets_of_respaced {cs ds : List Char} (h : Respaced cs ds) :
    List.Forall₂ Respaced (splitBrackets cs).1 (splitBrackets ds).1 ∧
      Respaced (splitBrackets cs).2 (splitBrackets ds).2 := by
  cases h with
  | nil =>
    rw [splitBrackets]
    exact ⟨.nil, .nil⟩
  | @char c cs ds hc h =>
    by_cases hopening : c = '('
    · subst hopening
      rcases rel_cases (bracketed?_of_respaced h) with ⟨hcs, hds⟩ | ⟨p, q, hcs, hds, hinside, hrest⟩
      · rw [splitBrackets_unclosed hcs, splitBrackets_unclosed hds]
        obtain ⟨hinsides, hstray⟩ := splitBrackets_of_respaced h
        exact ⟨hinsides, .char hc hstray⟩
      · rw [splitBrackets_closed hcs, splitBrackets_closed hds]
        have hlt := length_bracketed?_lt hcs
        obtain ⟨hinsides, hstray⟩ := splitBrackets_of_respaced hrest
        exact ⟨.cons hinside hinsides, hstray⟩
    · have hmem : '(' ∉ [c] := by simpa using Ne.symm hopening
      have hnot := splitBrackets_append_left hmem
      obtain ⟨hinsides, hstray⟩ := splitBrackets_of_respaced h
      rw [← List.singleton_append, hnot, ← List.singleton_append (l := ds), hnot]
      exact ⟨hinsides, .char hc hstray⟩
  | run hbs hbs' hkept h =>
    have hpos := List.length_pos_iff.mpr hbs.1
    obtain ⟨hinsides, hstray⟩ := splitBrackets_of_respaced h
    rw [splitBrackets_append_left (hbs.not_mem (by decide)),
      splitBrackets_append_left (hbs'.not_mem (by decide))]
    exact ⟨hinsides, .run hbs hbs' hkept hstray⟩
termination_by cs.length
decreasing_by all_goals simp only [List.length_cons, List.length_append]; omega

theorem readPoints_of_respaced (h : Respaced cs ds) :
    (readPoints cs : Except Problem (List (Point α))).toOption = (readPoints ds).toOption := by
  obtain ⟨hinsides, hstray⟩ := splitBrackets_of_respaced h
  unfold readPoints
  rw [h.count_eq (c := '(') (by decide), h.count_eq (c := ')') (by decide)]
  by_cases hcount : ds.count '(' = ds.count ')'
  · rw [if_neg (not_not.mpr hcount), if_neg (not_not.mpr hcount)]
    dsimp only
    by_cases hnone : trim (splitBrackets cs).2 = []
    · rw [if_neg (not_not.mpr hnone), if_neg (not_not.mpr (hstray.trim.eq_nil_iff.mp hnone))]
      exact toOption_mapM (hinsides.imp fun _ _ => readPoint_of_respaced)
    · rw [if_pos hnone, if_pos (mt hstray.trim.eq_nil_iff.mpr hnone)]
      rfl
  · rw [if_pos hcount, if_pos hcount]
    rfl

/-! ## Terms -/

/-- The name of a term and what follows the marks behind it. -/
def namedParts? : List Char → Option (List Char × List Char)
  | [] => none
  | c :: rest => (splitAt? [':', '='] rest).map fun parts =>
      (trimRight (c :: parts.1), trimLeft parts.2)

/-- The last of several blanks, taken for a name, and what follows the marks behind it. -/
def blankParts? (blanks text : List Char) : Option (List Char × List Char) :=
  match after? [':', '='] text, blanks.getLast? with
  | some points, some blank =>
    if 2 ≤ blanks.length then some ([blank], trimLeft points) else none
  | _, _ => none

theorem termParts?_eq (statement : List Char) : termParts? statement =
    (after? "TERM".toList statement).bind fun tail =>
      if tail.takeWhile isBlank = [] then none
      else (namedParts? (trimLeft tail)).or
        (blankParts? (tail.takeWhile isBlank) (trimLeft tail)) := by
  unfold termParts?
  cases after? "TERM".toList statement with
  | none => rfl
  | some tail =>
    rw [Option.bind_some]
    unfold trimLeft
    dsimp only
    generalize tail.takeWhile isBlank = blanks
    cases tail.dropWhile isBlank with
    | nil => exact (ite_self _).symm
    | cons c rest =>
      simp only [List.isEmpty_iff, namedParts?]
      congr 1
      cases splitAt? [':', '='] rest with
      | none => rfl
      | some parts => rfl

theorem namedParts?_of_respaced (h : Respaced cs ds) (hhead : ∀ c ∈ cs.head?, isBlank c = false)
    (hname : ∀ parts ∈ namedParts? cs, SingleSpaced parts.1) :
    Option.Rel (fun parts parts' => parts.1 = parts'.1 ∧ Respaced parts.2 parts'.2)
      (namedParts? cs) (namedParts? ds) := by
  cases h with
  | nil => exact .none
  | @char c cs ds hc h =>
    unfold namedParts? at hname ⊢
    dsimp only at hname ⊢
    rcases rel_cases (h.splitAt? [':', '='] (by decide)) with
      ⟨hcs, hds⟩ | ⟨⟨name, points⟩, ⟨name', points'⟩, hcs, hds, hnames, hpoints⟩
    · rw [hcs, hds]
      exact .none
    · rw [hcs] at hname ⊢
      rw [hds]
      have hsame := (Respaced.char hc hnames).trimRight.eq_of_singleSpaced (hname _ rfl)
      exact .some ⟨hsame.symm, hpoints.trimLeft⟩
  | run hbs _ _ _ =>
    obtain ⟨b, bs, rfl, hb⟩ := hbs.exists_cons
    cases (hhead b rfl).symm.trans hb

-- A name of words between single spaces is not a blank.
theorem blankParts?_eq_none {blanks text : List Char} (hblanks : ∀ b ∈ blanks, isBlank b = true)
    (hname : ∀ parts ∈ blankParts? blanks text, SingleSpaced parts.1) :
    blankParts? blanks text = none := by
  unfold blankParts? at hname ⊢
  split
  · rename_i points blank _ hlast
    rw [‹after? _ _ = _›, hlast] at hname
    refine if_neg fun hlong => ?_
    obtain ⟨words, hwords, hspaced⟩ := (hname _ (if_pos hlong)).exists_spaced
    have hblank := head?_spaced hwords blank (hspaced ▸ rfl)
    cases hblank.symm.trans (hblanks blank (List.mem_of_getLast? hlast))
  · rfl

theorem blankParts?_eq_none_iff {blanks text : List Char} :
    blankParts? blanks text = none ↔ after? [':', '='] text = none ∨ blanks.length < 2 := by
  unfold blankParts?
  split
  · rename_i hpoints _
    simp [hpoints]
  · rename_i hnot
    refine iff_of_true rfl (or_iff_not_imp_left.mpr fun hpoints => ?_)
    obtain ⟨points, hpoints⟩ := Option.ne_none_iff_exists'.mp hpoints
    have hlast : blanks.getLast? = none := Option.eq_none_iff_forall_ne_some.mpr fun blank hlast =>
      hnot points blank hpoints hlast
    rw [List.getLast?_eq_none_iff.mp hlast]
    decide

theorem termParts?_of_respaced (h : Respaced cs ds)
    (hname : ∀ parts ∈ termParts? cs, SingleSpaced parts.1) :
    Option.Rel (fun parts parts' => parts.1 = parts'.1 ∧ Respaced parts.2 parts'.2)
      (termParts? cs) (termParts? ds) := by
  rw [termParts?_eq] at hname ⊢
  rw [termParts?_eq]
  rcases rel_cases (h.after? "TERM".toList (by decide)) with
    ⟨hcs, hds⟩ | ⟨tail, tail', hcs, hds, htail⟩
  · rw [hcs, hds]
    exact .none
  rw [hcs, Option.bind_some] at hname ⊢
  rw [hds, Option.bind_some]
  have hblanks := htail.takeWhile_of_blank (p := isBlank) fun _ => id
  by_cases hnone : tail.takeWhile isBlank = []
  · rw [if_pos hnone, if_pos (hblanks.eq_nil_iff.mp hnone)]
    exact .none
  rw [if_neg hnone] at hname ⊢
  rw [if_neg (mt hblanks.eq_nil_iff.mpr hnone)]
  rcases rel_cases (namedParts?_of_respaced htail.trimLeft (head?_dropWhile_isBlank tail)
    fun parts hparts => hname parts (by rw [Option.mem_def.mp hparts]; rfl)) with
    ⟨hcs, hds⟩ | ⟨parts, parts', hcs, hds, hparts⟩
  · rw [hcs, Option.none_or] at hname ⊢
    rw [hds, Option.none_or]
    have hblank := blankParts?_eq_none (fun _ => List.mem_takeWhile_imp) hname
    have hmarks (hnone : after? [':', '='] (trimLeft tail) = none) :
        after? [':', '='] (trimLeft tail') = none := by
      rcases rel_cases (htail.trimLeft.after? [':', '='] (by decide)) with
        ⟨-, hnone'⟩ | ⟨_, _, hsome, -⟩
      · exact hnone'
      · cases hnone.symm.trans hsome
    rw [hblank, blankParts?_eq_none_iff.mpr ((blankParts?_eq_none_iff.mp hblank).imp hmarks
      htail.length_blanks_le.trans_lt)]
    exact .none
  · rw [hcs, hds]
    exact .some hparts

theorem readTerm_of_respaced (h : Respaced cs ds)
    (hname : ∀ parts ∈ termParts? cs, SingleSpaced parts.1) :
    (readTerm cs : Except Problem (Term α)).toOption = (readTerm ds).toOption := by
  unfold readTerm
  rcases rel_cases (termParts?_of_respaced h hname) with
    ⟨hcs, hds⟩ | ⟨⟨name, text⟩, ⟨_, text'⟩, hcs, hds, rfl, htext⟩
  · rw [hcs, hds]
  · rw [hcs, hds]
    dsimp only
    rw [toOption_bind, toOption_bind, readPoints_of_respaced htext]

/-! ## Declarations, settings and default values -/

omit [Scalar α] in
theorem declaredName_of_respaced (h : Respaced cs ds)
    (hname : ∀ name ∈ (declaredName cs).toOption, SingleSpaced name.toList) :
    declaredName ds = declaredName cs := by
  unfold declaredName at hname ⊢
  rcases rel_cases (h.splitAt? [':'] (by decide)) with
    ⟨hcs, hds⟩ | ⟨⟨name, _⟩, ⟨name', _⟩, hcs, hds, hnames, -⟩
  · rw [hcs, hds]
  · rw [hcs] at hname ⊢
    rw [hds]
    dsimp only at hname ⊢
    by_cases hnone : trim name = []
    · rw [if_pos hnone, if_pos (hnames.trim.eq_nil_iff.mp hnone)]
    · rw [if_neg hnone] at hname
      have hsingle := hname _ rfl
      rw [String.toList_ofList] at hsingle
      rw [hnames.trim.eq_of_singleSpaced hsingle]

omit [Scalar α] in
theorem markBehind_of_respaced (h : Respaced cs ds) (keyword mark : List Char)
    (hkeyword : ∀ c ∈ keyword, isBlank c = false) (hmark : ∀ c ∈ mark, isBlank c = false) :
    Option.Rel Respaced ((after? keyword cs).bind fun tail => after? mark (trimLeft tail))
      ((after? keyword ds).bind fun tail => after? mark (trimLeft tail)) := by
  rcases rel_cases (h.after? keyword hkeyword) with ⟨hcs, hds⟩ | ⟨tail, tail', hcs, hds, htail⟩
  · rw [hcs, hds]
    exact .none
  · rw [hcs, hds]
    exact htail.trimLeft.after? mark hmark

theorem settingValue?_eq (keyword statement : List Char) : settingValue? keyword statement =
    ((after? keyword statement).bind fun tail => after? [':'] (trimLeft tail)).bind fun rest =>
      if trimLeft rest ≠ [] ∧ (trimLeft rest).all (!isBlank ·) then some (trimLeft rest)
      else none := by
  unfold settingValue?
  cases after? keyword statement with
  | none => rfl
  | some tail =>
    rw [Option.bind_some]
    dsimp only
    split
    · rename_i rest hcolon
      rw [hcolon]
      rfl
    · rename_i hnot
      rw [after?_of_head? fun hhead => ?_]
      · rfl
      · obtain ⟨rest, hrest⟩ := List.head?_eq_some_iff.mp hhead
        exact hnot rest hrest

-- A value holds no blank.
theorem settingValue?_of_respaced {keyword : List Char}
    (hkeyword : ∀ c ∈ keyword, isBlank c = false) (h : Respaced cs ds) :
    settingValue? keyword cs = settingValue? keyword ds := by
  rw [settingValue?_eq, settingValue?_eq]
  rcases rel_cases (markBehind_of_respaced h keyword [':'] hkeyword (by decide)) with
    ⟨hcs, hds⟩ | ⟨rest, rest', hcs, hds, hrest⟩
  · rw [hcs, hds]
  · rw [hcs, hds, Option.bind_some, Option.bind_some, ← hrest.trimLeft.all_not_blank]
    by_cases hall : (trimLeft rest).all (!isBlank ·) = true
    · rw [hrest.trimLeft.eq_of_not_blank (by simpa using hall)]
    · rw [if_neg (fun h => hall h.2), if_neg (fun h => hall h.2)]

omit [Scalar α] in
theorem readSetting_of_respaced {β : Type} {keyword : String} (choice : Choice β)
    (hkeyword : ∀ c ∈ keyword.toList, isBlank c = false) (h : Respaced cs ds) :
    readSetting keyword choice cs = readSetting keyword choice ds := by
  unfold readSetting
  rw [settingValue?_of_respaced hkeyword h]

theorem readDefault_of_respaced (h : Respaced cs ds) :
    (readDefault cs : Except Problem α).toOption = (readDefault ds).toOption := by
  unfold readDefault
  rcases rel_cases (markBehind_of_respaced h "DEFAULT".toList [':', '='] (by decide)
    (by decide)) with ⟨hcs, hds⟩ | ⟨tail, tail', hcs, hds, htail⟩
  · rw [hcs, hds]
  · rw [hcs, hds]
    dsimp only
    by_cases hnone : trim tail = []
    · rw [if_pos hnone, if_pos (htail.trim.eq_nil_iff.mp hnone)]
    · rw [if_neg hnone, if_neg (mt htail.trim.eq_nil_iff.mpr hnone)]
      exact readNumber_of_respaced .default htail

end FuzzyInference.Fcl
