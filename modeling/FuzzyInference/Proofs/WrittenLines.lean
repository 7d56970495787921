import FuzzyInference.Fcl.Reader
import FuzzyInference.Proofs.Names
import Mathlib.Data.List.TakeWhile

/-!
# Lines that are written

The lines of a written text are found again, and each one gives its keyword and its statement.
-/

namespace FuzzyInference.Fcl

open Text

/-! ## The lines of a text -/

theorem linesFrom_append {cs : List Char} (h : ∀ c ∈ cs, isLineBreak c = false)
    (line rest : List Char) :
    linesFrom line (cs ++ rest) = linesFrom (cs.reverse ++ line) rest := by
  induction cs generalizing line with
  | nil => rfl
  | cons c cs ih =>
    obtain ⟨hc, hcs⟩ := List.forall_mem_cons.mp h
    have hreturn : c ≠ '\r' := by
      rintro rfl
      simp [isLineBreak] at hc
    rw [List.cons_append, linesFrom.eq_3 _ _ _ (fun _ h => absurd h hreturn), if_neg (by simp [hc]),
      ih hcs, List.reverse_cons, List.append_assoc, List.singleton_append]

theorem linesFrom_newline (line rest : List Char) :
    linesFrom line ('\n' :: rest) = line.reverse :: linesFrom [] rest := by
  rw [linesFrom.eq_3 _ _ _ (fun _ hreturn => absurd hreturn (by decide)), if_pos (by decide)]

/-- The text stands on one line. -/
def OneLine (text : String) : Prop := ∀ c ∈ text.toList, isLineBreak c = false

instance (text : String) : Decidable (OneLine text) := by
  unfold OneLine
  infer_instance

theorem OneLine.append {s t : String} (hs : OneLine s) (ht : OneLine t) : OneLine (s ++ t) := by
  unfold OneLine
  rw [String.toList_append]
  exact List.forall_mem_append.mpr ⟨hs, ht⟩

theorem OneLine.enclosed {head text tail : String} (h : OneLine text) (hhead : OneLine head)
    (htail : OneLine tail) : OneLine (head ++ text ++ tail) :=
  (hhead.append h).append htail

-- Lines that are written one below the other are the lines of the text.
theorem lines_join {ls : List String} (h : ∀ l ∈ ls, OneLine l) :
    lines (String.join (ls.map (· ++ "\n"))).toList = ls.map String.toList := by
  unfold lines
  induction ls with
  | nil => rfl
  | cons l ls ih =>
    obtain ⟨hl, hls⟩ := List.forall_mem_cons.mp h
    rw [List.map_cons, String.join_cons, String.toList_append, String.toList_append,
      List.append_assoc, List.map_cons, ← ih hls, linesFrom_append hl, List.append_nil]
    have hline := linesFrom_newline l.toList.reverse (String.join (ls.map (· ++ "\n"))).toList
    rwa [List.reverse_reverse] at hline

theorem isBlank_of_isLineBreak {c : Char} (h : isLineBreak c = true) : isBlank c = true := by
  simp only [isLineBreak, isBlank, Bool.or_eq_true, Bool.and_eq_true, beq_iff_eq,
    decide_eq_true_eq] at h ⊢
  omega

theorem not_lineBreak_of_not_blank {c : Char} (h : isBlank c = false) : isLineBreak c = false := by
  rw [← Bool.not_eq_true] at h ⊢
  exact mt isBlank_of_isLineBreak h

theorem not_lineBreak_spaced {ps : List (List Char)} (hps : ∀ p ∈ ps, IsPiece p) :
    ∀ c ∈ spaced ps, isLineBreak c = false := by
  intro c hc
  rcases mem_spaced hc with rfl | ⟨p, hp, hc⟩
  · decide
  · exact not_lineBreak_of_not_blank ((hps p hp).2 c hc)

theorem Admitted.oneLine {name : String} (h : Admitted (spacedWords name.toList)) :
    OneLine name := by
  have hname := not_lineBreak_spaced h.pieces
  rwa [spaced_spacedWords] at hname

/-! ## Contents and keywords -/

/-- The text holds no comment in brackets. -/
def Uncommented (cs : List Char) : Prop := dropComments cs = cs

instance (cs : List Char) : Decidable (Uncommented cs) := by
  unfold Uncommented
  infer_instance

theorem content_of_uncommented {raw : List Char} (h : Uncommented raw) (hslashes : Unslashed raw) :
    content raw = trim raw := by
  unfold content
  rw [h, beforeSlashes_of_unslashed hslashes]

theorem Quiet.uncommented {cs : List Char} (h : Quiet cs) : Uncommented cs :=
  dropComments_of_quiet h

theorem content_of_quiet {raw : List Char} (h : Quiet raw) : content raw = trim raw :=
  content_of_uncommented h.uncommented h.unslashed

theorem quiet_tab {cs : List Char} (h : Quiet cs) : Quiet ('\t' :: cs) :=
  h.cons fun _ _ => ⟨fun h => absurd h.1 (by decide), fun h => absurd h.1 (by decide)⟩

theorem unslashed_statement {cs : List Char} (h : Unslashed cs) :
    Unslashed ('\t' :: cs ++ [';']) := by
  refine List.IsChain.cons ?_ fun _ _ h => absurd h.1 (by decide)
  refine h.append (.singleton _) fun c _ d hd hslashes => ?_
  obtain rfl : ';' = d := by simpa using hd
  exact absurd hslashes.2 (by decide)

theorem quiet_semicolon {cs : List Char} (h : Quiet cs) : Quiet (cs ++ [';']) := by
  refine h.append (.singleton _) fun c _ d hd => ?_
  obtain rfl : ';' = d := by simpa using hd
  exact ⟨fun h => absurd h.2 (by decide), fun h => absurd h.2 (by decide)⟩

-- A text between two pieces has no margin.
theorem trim_append_spaced {p : List Char} {qs : List (List Char)} (hp : IsPiece p)
    (hqs : ∀ q ∈ qs, IsPiece q) (hne : qs ≠ []) (middle : List Char) :
    trim (p ++ middle ++ spaced qs) = p ++ middle ++ spaced qs := by
  have hmirror := isPiece_mirror hqs
  obtain ⟨q, rest, hrest⟩ := List.exists_cons_of_ne_nil
    (show (qs.map List.reverse).reverse ≠ [] by simpa using hne)
  obtain ⟨tail, htail, -⟩ := exists_spaced_cons q rest
  have hq : IsPiece q := hmirror q (by simp [hrest])
  have hreverse : (spaced qs).reverse = q ++ tail := by rw [reverse_spaced, hrest, htail]
  unfold trim
  rw [List.append_assoc, trimLeft_append_of_piece hp, trimRight_eq, ← List.append_assoc,
    List.reverse_append, hreverse, List.append_assoc, trimLeft_append_of_piece hq,
    ← List.append_assoc, ← hreverse, ← List.reverse_append, List.reverse_reverse]

theorem trim_between {p q : List Char} (hp : IsPiece p) (hq : IsPiece q) (middle : List Char) :
    trim (p ++ middle ++ q) = p ++ middle ++ q := by
  have h := trim_append_spaced hp (List.forall_mem_singleton.mpr hq) (by simp) middle
  rwa [spaced_singleton] at h

theorem trim_tab_between {p q : List Char} (hp : IsPiece p) (hq : IsPiece q) (middle : List Char) :
    trim ('\t' :: (p ++ middle ++ q)) = p ++ middle ++ q := by
  have htrim := trim_between hp hq middle
  unfold trim at htrim ⊢
  rw [trimLeft_cons_of_blank (by decide), htrim]

/-- A word that a line may begin with. -/
def IsKeyword (word : List Char) : Prop :=
  word ≠ [] ∧ leadingWord word = word ∧ ∀ c ∈ word, isBlank c = false ∧ c ≠ '(' ∧ c ≠ '/'

instance (word : List Char) : Decidable (IsKeyword word) := by
  unfold IsKeyword
  infer_instance

theorem IsKeyword.isPiece {word : List Char} (h : IsKeyword word) : IsPiece word :=
  ⟨h.1, fun c hc => (h.2.2 c hc).1⟩

theorem IsKeyword.quiet {word : List Char} (h : IsKeyword word) : Quiet word :=
  quiet_of_not_mem (fun hmem => (h.2.2 _ hmem).2.1 rfl) fun hmem => (h.2.2 _ hmem).2.2 rfl

theorem leadingWord_append {word : List Char} (h : IsKeyword word) (rest : List Char) :
    leadingWord (word ++ ' ' :: rest) = word := by
  obtain ⟨hne, hleading, -⟩ := h
  obtain ⟨c, word, rfl⟩ := List.exists_cons_of_ne_nil hne
  rw [List.cons_append]
  unfold leadingWord at hleading ⊢
  dsimp only at hleading ⊢
  by_cases hstart : isWordStart c = true
  · rw [if_pos hstart] at hleading ⊢
    have hword : word.takeWhile isWordChar = word := (List.cons.inj hleading).2
    rw [List.takeWhile_append_of_pos (List.takeWhile_eq_self_iff.mp hword),
      List.takeWhile_cons_of_neg (by decide), List.append_nil]
  · rw [if_neg hstart] at hleading
    cases hleading

theorem leadingWord_prefix (cs : List Char) : leadingWord cs <+: cs := by
  unfold leadingWord
  split
  · exact List.prefix_rfl
  · split
    · exact (List.prefix_cons_inj _).mpr (List.takeWhile_prefix _)
    · exact List.nil_prefix

-- No admitted name begins like the end of a block.
theorem leadingWord_ne_end {words : List (List Char)} (h : Admitted words) {tail : List Char}
    (htail : Stops tail) : leadingWord (spaced words ++ tail) ≠ "END_VAR".toList := by
  intro hleading
  obtain ⟨w, ws, rfl⟩ := List.exists_cons_of_ne_nil h.nonempty
  obtain ⟨more, hmore, hstops⟩ := exists_spaced_cons w ws
  have hw := (h.pieces w (by simp)).2
  have hrest : Stops (more ++ tail) := by
    cases more with
    | nil => exact htail
    | cons c more => exact hstops
  obtain ⟨rest, hprefix⟩ := leadingWord_prefix (spaced (w :: ws) ++ tail)
  rw [hleading, hmore, List.append_assoc] at hprefix
  -- the word that the line begins with is a part of the first word of the name
  have hfirst := congrArg (List.takeWhile (!isBlank ·)) hprefix
  rw [takeWhile_piece hw hrest, List.takeWhile_append_of_pos (by decide)] at hfirst
  have hend := h.notEnd
  rw [List.headD_cons, ← hfirst, show "END_VAR".toList = "END_".toList ++ "VAR".toList from rfl,
    List.append_assoc, after?_append] at hend
  cases hend

section Line

variable {word : String} {ps : List (List Char)}

-- A line with a keyword alone.
theorem ofRaw_keyword (h : IsKeyword word.toList) (n : Nat) :
    (Line.ofRaw n word.toList).content.isEmpty = false ∧
      (Line.ofRaw n word.toList).keyword = word ∧ (Line.ofRaw n word.toList).subject = "" := by
  have hcontent : (Line.ofRaw n word.toList).content = word.toList := by
    show content _ = _
    rw [content_of_quiet h.quiet, trim_piece h.isPiece]
  refine ⟨?_, ?_, ?_⟩
  · rw [hcontent]
    simpa using h.1
  · unfold Line.keyword
    rw [hcontent, h.2.1, String.ofList_toList]
  · unfold Line.subject
    rw [hcontent, h.2.1, List.drop_length]
    rfl

-- A line with a keyword and a name.
theorem ofRaw_subject (h : IsKeyword word.toList) {name : String}
    (hname : Admitted (spacedWords name.toList)) (n : Nat) :
    (Line.ofRaw n (word.toList ++ ' ' :: name.toList)).content.isEmpty = false ∧
      (Line.ofRaw n (word.toList ++ ' ' :: name.toList)).keyword = word ∧
      (Line.ofRaw n (word.toList ++ ' ' :: name.toList)).subject = name := by
  have hspaced : word.toList ++ ' ' :: name.toList =
      spaced (word.toList :: spacedWords name.toList) := by
    rw [spaced_cons _ hname.nonempty, spaced_spacedWords]
  -- the line holds no comment, so all of it is content
  have hquiet : Quiet (word.toList ++ ' ' :: name.toList) := by
    have := hname.quiet
    rw [spaced_spacedWords] at this
    exact quiet_append_space.mpr ⟨h.quiet, this⟩
  have hcontent : (Line.ofRaw n (word.toList ++ ' ' :: name.toList)).content =
      word.toList ++ ' ' :: name.toList := by
    show content _ = _
    rw [content_of_quiet hquiet, hspaced,
      trim_spaced (List.forall_mem_cons.mpr ⟨h.isPiece, hname.pieces⟩)]
  refine ⟨?_, ?_, ?_⟩
  · rw [hcontent]
    simp
  · unfold Line.keyword
    rw [hcontent, leadingWord_append h, String.ofList_toList]
  · have htrim := trim_cons_space hname.pieces
    rw [spaced_spacedWords] at htrim
    unfold Line.subject
    rw [hcontent, leadingWord_append h, List.drop_left, htrim, String.ofList_toList]

-- A statement that begins with a keyword, once the comments of its line are gone.
theorem ofRaw_stripped (h : IsKeyword word.toList) {raw body : List Char}
    (hraw : beforeSlashes (dropComments raw) = '\t' :: (word.toList ++ ' ' :: body ++ [';']))
    (n : Nat) :
    (Line.ofRaw n raw).content.isEmpty = false ∧ (Line.ofRaw n raw).keyword = word ∧
      (Line.ofRaw n raw).statement = .ok (trim (word.toList ++ ' ' :: body)) := by
  -- of what the line says only the tab at its front is dropped
  have hcontent : (Line.ofRaw n raw).content = word.toList ++ ' ' :: body ++ [';'] := by
    have hsemicolon : IsPiece [';'] := by decide
    show trim (beforeSlashes (dropComments raw)) = _
    rw [hraw, trim_tab_between h.isPiece hsemicolon]
  refine ⟨?_, ?_, ?_⟩
  · rw [hcontent]
    simp
  · unfold Line.keyword
    rw [hcontent, List.append_assoc, List.cons_append, leadingWord_append h, String.ofList_toList]
  · unfold Line.statement
    rw [hcontent, List.getLast?_concat, if_pos rfl, List.dropLast_concat]

-- A statement of pieces, on a line without a comment.
theorem ofRaw_uncommented (h : IsKeyword word.toList) (hps : ∀ p ∈ ps, IsPiece p ∧ Unslashed p)
    (hne : ps ≠ []) (hcomment : Uncommented ('\t' :: spaced (word.toList :: ps) ++ [';']))
    (n : Nat) :
    (Line.ofRaw n ('\t' :: spaced (word.toList :: ps) ++ [';'])).content.isEmpty = false ∧
      (Line.ofRaw n ('\t' :: spaced (word.toList :: ps) ++ [';'])).keyword = word ∧
      (Line.ofRaw n ('\t' :: spaced (word.toList :: ps) ++ [';'])).statement =
        .ok (spaced (word.toList :: ps)) := by
  have hall : ∀ p ∈ word.toList :: ps, IsPiece p :=
    List.forall_mem_cons.mpr ⟨h.isPiece, fun p hp => (hps p hp).1⟩
  have hunslashed : Unslashed (spaced (word.toList :: ps)) :=
    unslashed_spaced.mpr (List.forall_mem_cons.mpr ⟨h.quiet.unslashed, fun p hp => (hps p hp).2⟩)
  have hspaced := spaced_cons word.toList hne
  have hraw : beforeSlashes (dropComments ('\t' :: spaced (word.toList :: ps) ++ [';'])) =
      '\t' :: (word.toList ++ ' ' :: spaced ps ++ [';']) := by
    rw [hcomment, beforeSlashes_of_unslashed (unslashed_statement hunslashed), hspaced]
    rfl
  obtain ⟨hcontent, hkeyword, hstatement⟩ := ofRaw_stripped h hraw n
  rw [← hspaced, trim_spaced hall] at hstatement
  exact ⟨hcontent, hkeyword, hstatement⟩

-- A statement of pieces in which no comment begins.
theorem ofRaw_statement (h : IsKeyword word.toList) (hps : ∀ p ∈ ps, IsPiece p ∧ Quiet p)
    (hne : ps ≠ []) (n : Nat) :
    (Line.ofRaw n ('\t' :: spaced (word.toList :: ps) ++ [';'])).content.isEmpty = false ∧
      (Line.ofRaw n ('\t' :: spaced (word.toList :: ps) ++ [';'])).keyword = word ∧
      (Line.ofRaw n ('\t' :: spaced (word.toList :: ps) ++ [';'])).statement =
        .ok (spaced (word.toList :: ps)) := by
  have hquiet : Quiet (spaced (word.toList :: ps)) :=
    quiet_spaced.mpr (List.forall_mem_cons.mpr ⟨h.quiet, fun p hp => (hps p hp).2⟩)
  exact ofRaw_uncommented h (fun p hp => ⟨(hps p hp).1, (hps p hp).2.unslashed⟩) hne
    (quiet_tab (quiet_semicolon hquiet)).uncommented n

-- A declaration.
theorem ofRaw_declaration {name : String} (hname : Admitted (spacedWords name.toList)) (n : Nat) :
    (Line.ofRaw n ('\t' :: name.toList ++ " :\tREAL;".toList)).content.isEmpty = false ∧
      (Line.ofRaw n ('\t' :: name.toList ++ " :\tREAL;".toList)).keyword ≠ "END_VAR" ∧
      (Line.ofRaw n ('\t' :: name.toList ++ " :\tREAL;".toList)).statement =
        .ok (name.toList ++ " :\tREAL".toList) := by
  have hspaced := spaced_spacedWords name.toList
  have hquiet : Quiet (name.toList ++ " :\tREAL;".toList) := by
    have := hname.quiet
    rw [hspaced] at this
    exact quiet_append_space.mpr ⟨this, quiet_of_not_mem (by decide) (by decide)⟩
  -- the name begins the line here, so it must not look like the end of the block
  have hkeyword := leadingWord_ne_end hname (stops_space ":\tREAL;".toList)
  obtain ⟨w, ws, hws⟩ := List.exists_cons_of_ne_nil hname.nonempty
  obtain ⟨tail, htail, -⟩ := exists_spaced_cons w ws
  have hw : IsPiece w := hname.pieces w (by simp [hws])
  rw [hspaced] at hkeyword
  rw [hws, htail] at hspaced
  -- the blanks around the colon stay, those at the ends do not
  have hends (last : List Char) (hlast : IsPiece last) :
      trim (name.toList ++ " :\t".toList ++ last) = name.toList ++ " :\t".toList ++ last ∧
        trim ('\t' :: (name.toList ++ " :\t".toList ++ last)) =
          name.toList ++ " :\t".toList ++ last := by
    rw [← hspaced, List.append_assoc w]
    exact ⟨trim_between hw hlast _, trim_tab_between hw hlast _⟩
  have hcontent : (Line.ofRaw n ('\t' :: name.toList ++ " :\tREAL;".toList)).content =
      name.toList ++ " :\tREAL;".toList := by
    have h := (hends "REAL;".toList (by decide)).2
    rw [List.append_assoc] at h
    show content _ = _
    rw [List.cons_append, content_of_quiet (quiet_tab hquiet)]
    exact h
  refine ⟨?_, ?_, ?_⟩
  · rw [hcontent]
    simp
  · unfold Line.keyword
    rw [hcontent]
    intro h
    have hleading := congrArg String.toList h
    rw [String.toList_ofList] at hleading
    exact hkeyword hleading
  · have h := (hends "REAL".toList (by decide)).1
    rw [List.append_assoc] at h
    have hsplit : name.toList ++ " :\tREAL;".toList =
        (name.toList ++ " :\tREAL".toList) ++ [';'] := by
      rw [List.append_assoc]
      rfl
    unfold Line.statement
    rw [hcontent, hsplit, List.getLast?_concat, if_pos rfl, List.dropLast_concat]
    exact congrArg Except.ok h

end Line

end FuzzyInference.Fcl
