import FuzzyInference.Fcl.Writer
import FuzzyInference.Proofs.Spaced
import FuzzyInference.Proofs.Outcomes
import Mathlib.Data.List.Chain

/-!
# Names that are written

A name that passes its check consists of words with single spaces between them.  No word is reserved
or holds a mark of the language, and no comment begins in the name.
-/

namespace FuzzyInference.Fcl

open Text

/-! ## Texts without comments -/

/-- The two characters do not begin a comment. -/
def NoComment (a b : Char) : Prop := ¬(a = '(' ∧ b = '*') ∧ ¬(a = '/' ∧ b = '/')

/-- No comment begins in the text. -/
def Quiet (cs : List Char) : Prop := cs.IsChain NoComment

theorem dropComments_of_quiet {cs : List Char} (h : Quiet cs) : dropComments cs = cs := by
  fun_induction dropComments cs with
  | case1 => rfl
  | case2 body rest hafter hlen ih =>
    exact absurd ⟨rfl, rfl⟩ (List.isChain_cons_cons.mp h).1.1
  | case3 body hafter ih =>
    exact absurd ⟨rfl, rfl⟩ (List.isChain_cons_cons.mp h).1.1
  | case4 c rest hnot ih => rw [ih (List.isChain_cons.mp h).2]

/-- No comment up to the end of its line begins in the text. -/
def Unslashed (cs : List Char) : Prop := cs.IsChain fun a b => ¬(a = '/' ∧ b = '/')

theorem Quiet.unslashed {cs : List Char} (h : Quiet cs) : Unslashed cs := h.imp fun _ _ h => h.2

theorem beforeSlashes_of_unslashed {cs : List Char} (h : Unslashed cs) :
    beforeSlashes cs = cs := by
  fun_induction beforeSlashes cs with
  | case1 => rfl
  | case2 rest => exact absurd ⟨rfl, rfl⟩ (List.isChain_cons_cons.mp h).1
  | case3 c rest hnot ih => rw [ih (List.isChain_cons.mp h).2]

theorem quiet_of_not_mem {cs : List Char} (hopening : '(' ∉ cs) (hslash : '/' ∉ cs) : Quiet cs := by
  induction cs with
  | nil => exact .nil
  | cons c cs ih =>
    simp only [List.mem_cons, not_or] at hopening hslash
    refine (ih hopening.2 hslash.2).cons fun d _ => ⟨?_, ?_⟩
    · exact fun h => hopening.1 h.1.symm
    · exact fun h => hslash.1 h.1.symm

theorem noComment_space (c : Char) : NoComment c ' ' := by
  constructor
  · rintro ⟨-, h⟩
    exact absurd h (by decide)
  · rintro ⟨-, h⟩
    exact absurd h (by decide)

section Spaces

variable {R : Char → Char → Prop} (hleft : ∀ c, R c ' ') (hright : ∀ c, R ' ' c)

include hleft hright

theorem isChain_append_space {p rest : List Char} :
    (p ++ ' ' :: rest).IsChain R ↔ p.IsChain R ∧ rest.IsChain R := by
  rw [List.isChain_append, List.isChain_cons]
  constructor
  · rintro ⟨hp, ⟨-, hrest⟩, -⟩
    exact ⟨hp, hrest⟩
  · rintro ⟨hp, hrest⟩
    refine ⟨hp, ⟨fun c _ => hright c, hrest⟩, fun c _ d hd => ?_⟩
    obtain rfl : ' ' = d := by simpa using hd
    exact hleft c

theorem isChain_spaced {ps : List (List Char)} :
    (spaced ps).IsChain R ↔ ∀ p ∈ ps, p.IsChain R := by
  induction ps with
  | nil => simp
  | cons p ps ih =>
    by_cases h : ps = []
    · subst h
      simp
    · rw [spaced_cons p h, isChain_append_space hleft hright, ih, List.forall_mem_cons]

end Spaces

theorem noComment_space_left (c : Char) : NoComment ' ' c :=
  ⟨fun h => absurd h.1 (by decide), fun h => absurd h.1 (by decide)⟩

-- A comment cannot begin across a space.
theorem quiet_append_space {p rest : List Char} :
    Quiet (p ++ ' ' :: rest) ↔ Quiet p ∧ Quiet rest :=
  isChain_append_space noComment_space noComment_space_left

theorem quiet_spaced {ps : List (List Char)} : Quiet (spaced ps) ↔ ∀ p ∈ ps, Quiet p :=
  isChain_spaced noComment_space noComment_space_left

theorem unslashed_append_space {p rest : List Char} :
    Unslashed (p ++ ' ' :: rest) ↔ Unslashed p ∧ Unslashed rest :=
  isChain_append_space (fun c => (noComment_space c).2) fun c => (noComment_space_left c).2

theorem unslashed_spaced {ps : List (List Char)} :
    Unslashed (spaced ps) ↔ ∀ p ∈ ps, Unslashed p :=
  isChain_spaced (fun c => (noComment_space c).2) fun c => (noComment_space_left c).2

/-! ## What the check of a name admits -/

/-- The words of a name that passes its check. -/
structure Admitted (words : List (List Char)) : Prop where
  nonempty : words ≠ []
  pieces : ∀ w ∈ words, IsPiece w
  wordChars : ∀ w ∈ words, ∀ c ∈ w, Token.isWordChar c = true
  noColon : ∀ w ∈ words, ':' ∉ w
  quiet : Quiet (spaced words)
  unreserved : ∀ w ∈ words, w ∉ reservedWords
  notEnd : after? "END_".toList (words.headD []) = none

theorem spacedWords_eq_splitOn (cs : List Char) : spacedWords cs = cs.splitOn ' ' := by
  induction cs with
  | nil => rfl
  | cons c cs ih =>
    rw [spacedWords, ih, List.splitOn_cons_eq_if_modifyHead]
    by_cases h : c = ' '
    · simp [h]
    · rw [if_neg h, if_neg (by simpa using h)]
      cases hsplit : cs.splitOn ' ' with
      | nil => exact absurd hsplit (List.splitOn_ne_nil ' ' cs)
      | cons word words => rfl

theorem spaced_spacedWords (cs : List Char) : spaced (spacedWords cs) = cs := by
  rw [spacedWords_eq_splitOn]
  exact List.intercalate_splitOn ' '

theorem of_mem_spacedWords {cs : List Char} :
    ∀ w ∈ spacedWords cs, ∀ c ∈ w, c ∈ cs ∧ c ≠ ' ' := by
  induction cs with
  | nil => simp [spacedWords]
  | cons d cs ih =>
    have hlater : ∀ w ∈ spacedWords cs, ∀ c ∈ w, c ∈ d :: cs ∧ c ≠ ' ' := fun w hw c hc =>
      ⟨List.mem_cons_of_mem d (ih w hw c hc).1, (ih w hw c hc).2⟩
    rw [spacedWords]
    -- a space begins a new word; any other character joins the first one
    split
    · exact List.forall_mem_cons.mpr ⟨by simp, hlater⟩
    · rename_i hd
      split
      · rename_i word words hwords
        rw [hwords] at hlater
        obtain ⟨hfirst, hrest⟩ := List.forall_mem_cons.mp hlater
        refine List.forall_mem_cons.mpr ⟨List.forall_mem_cons.mpr ⟨?_, hfirst⟩, hrest⟩
        exact ⟨List.mem_cons_self, hd⟩
      · simp [hd]

theorem Admitted.trim_eq {cs : List Char} (h : Admitted (spacedWords cs)) : trim cs = cs := by
  have htrim := trim_spaced h.pieces
  rwa [spaced_spacedWords] at htrim

theorem Admitted.quietPieces {words : List (List Char)} (h : Admitted words) :
    ∀ w ∈ words, IsPiece w ∧ Quiet w := fun w hw =>
  ⟨h.pieces w hw, quiet_spaced.mp h.quiet w hw⟩

theorem char_of_hasForbidden {cs : List Char} (h : hasForbidden cs = false) :
    ∀ c ∈ cs, c ≠ '(' ∧ c ≠ ')' ∧ c ≠ ':' ∧ (isBlank c = true → c = ' ') := by
  induction cs with
  | nil => simp
  | cons c cs ih =>
    simp only [hasForbidden, Bool.or_eq_false_iff, beq_eq_false_iff_ne] at h
    obtain ⟨⟨⟨hmark, -⟩, hblank⟩, hrest⟩ := h
    refine List.forall_mem_cons.mpr ⟨⟨hmark.1.1.1, hmark.1.1.2, hmark.2, ?_⟩, ih hrest⟩
    simpa using hblank

theorem chain_of_hasForbidden {cs : List Char} (h : hasForbidden cs = false) :
    cs.IsChain fun a b => NoComment a b ∧ ¬(a = ' ' ∧ b = ' ') := by
  induction cs with
  | nil => exact .nil
  | cons c cs ih =>
    have hc := (char_of_hasForbidden h c (by simp)).1
    simp only [hasForbidden, Bool.or_eq_false_iff] at h
    refine (ih h.2).cons fun d hd => ?_
    -- what is forbidden at the front concerns the first two characters
    cases cs with
    | nil => simp at hd
    | cons d' cs =>
      obtain rfl : d' = d := by simpa using hd
      refine ⟨⟨fun hopen => hc hopen.1, ?_⟩, ?_⟩
      · rintro ⟨rfl, rfl⟩
        simp at h
      · rintro ⟨rfl, rfl⟩
        simp [isBlank] at h

-- Without two spaces in a row and without spaces at the ends, no word is empty.
theorem ne_nil_of_mem_words {words : List (List Char)} (hne : spaced words ≠ [])
    (hchain : (spaced words).IsChain fun a b => ¬(a = ' ' ∧ b = ' '))
    (hfirst : (spaced words).head? ≠ some ' ') (hlast : (spaced words).getLast? ≠ some ' ') :
    ∀ w ∈ words, w ≠ [] := by
  -- on the words: an empty one would put a space at an end, or two in a row
  induction words with
  | nil => simp
  | cons w words ih =>
    by_cases h : words = []
    · subst h
      simpa using hne
    · rw [spaced_cons w h] at hchain hfirst hlast
      refine List.forall_mem_cons.mpr ⟨?_, ?_⟩
      · rintro rfl
        exact hfirst rfl
      · obtain ⟨hrest, hafter⟩ : (spaced words).IsChain (fun a b => ¬(a = ' ' ∧ b = ' ')) ∧
            ∀ c ∈ (spaced words).head?, ¬(' ' = ' ' ∧ c = ' ') := by
          have := List.isChain_cons.mp (List.isChain_append.mp hchain).2.1
          exact ⟨this.2, this.1⟩
        have hne' : spaced words ≠ [] := by
          intro hnil
          rw [hnil] at hlast
          simp at hlast
        refine ih hne' hrest (fun hhead => hafter ' ' hhead ⟨rfl, rfl⟩) ?_
        rwa [List.getLast?_append_of_ne_nil _ (by simp), List.getLast?_cons_of_ne_nil hne'] at hlast

theorem length_trimRight_le (cs : List Char) : (trimRight cs).length ≤ cs.length := by
  have h : (cs.reverse.dropWhile isBlank).length ≤ cs.reverse.length :=
    (List.dropWhile_suffix _).length_le
  unfold trimRight
  rwa [List.length_reverse] at h ⊢

-- A text that trimming leaves as it is has no space at either end.
theorem ends_of_trim {cs : List Char} (h : cs = trim cs) :
    cs.head? ≠ some ' ' ∧ cs.getLast? ≠ some ' ' := by
  constructor
  · intro hhead
    obtain ⟨rest, rfl⟩ : ∃ rest, cs = ' ' :: rest := List.head?_eq_some_iff.mp hhead
    -- a blank at the front is trimmed, which makes the text shorter
    have hlen := congrArg List.length h
    unfold trim at hlen
    rw [trimLeft_cons_of_blank (by decide)] at hlen
    have hright := length_trimRight_le (trimLeft rest)
    have hleft : (trimLeft rest).length ≤ rest.length := (List.dropWhile_suffix _).length_le
    simp only [List.length_cons] at hlen
    omega
  · intro hlast
    rw [h] at hlast
    unfold trim trimRight at hlast
    rw [List.getLast?_reverse] at hlast
    have hnot := List.head?_dropWhile_not isBlank (trimLeft cs).reverse
    rw [hlast] at hnot
    exact absurd hnot (by decide)

theorem admitted_of_checkName {role : NameRole} {name : String} (h : checkName role name = .ok ()) :
    Admitted (spacedWords name.toList) := by
  unfold checkName at h
  dsimp only at h
  split_ifs at h with hnil hshape hreserved
  obtain ⟨htrim, hforbidden⟩ := not_or.mp hshape
  rw [Bool.not_eq_true] at hforbidden hreserved
  -- what is known now that no check has refused the name
  have hchars := char_of_hasForbidden hforbidden
  have hchain := chain_of_hasForbidden hforbidden
  obtain ⟨hfirst, hlast⟩ := ends_of_trim (not_not.mp htrim)
  have hspaced := spaced_spacedWords name.toList
  have hwordChars : ∀ w ∈ spacedWords name.toList, ∀ c ∈ w, Token.isWordChar c = true := by
    intro w hw c hc
    obtain ⟨hmem, hspace⟩ := of_mem_spacedWords w hw c hc
    obtain ⟨hopening, hclosing, -, hblank⟩ := hchars c hmem
    simp [Token.isWordChar, hopening, hclosing, mt hblank hspace]
  have hne : ∀ w ∈ spacedWords name.toList, w ≠ [] := by
    apply ne_nil_of_mem_words
    · rwa [hspaced]
    · rw [hspaced]
      exact hchain.imp fun _ _ h => h.2
    · rwa [hspaced]
    · rwa [hspaced]
  unfold hasReserved at hreserved
  simp only [Bool.or_eq_false_iff, List.any_eq_false, Option.isSome_eq_false_iff,
    Option.isNone_iff_eq_none] at hreserved
  exact {
    nonempty := by
      rw [spacedWords_eq_splitOn]
      exact List.splitOn_ne_nil ' ' _
    pieces := fun w hw => by
      refine ⟨hne w hw, fun c hc => ?_⟩
      have hchar := hwordChars w hw c hc
      simp only [Token.isWordChar, Bool.not_eq_true', Bool.or_eq_false_iff] at hchar
      exact hchar.1.1
    wordChars := hwordChars
    noColon := fun w hw hc => (hchars ':' (of_mem_spacedWords w hw ':' hc).1).2.2.1 rfl
    quiet := by
      rw [hspaced]
      exact hchain.imp fun _ _ h => h.1
    unreserved := fun w hw hmem => hreserved.1 w hw (List.contains_iff_mem.mpr hmem)
    notEnd := hreserved.2 }

end FuzzyInference.Fcl

namespace FuzzyInference

variable {α : Type}

/-- The names of a variable and of its terms read back as themselves. -/
structure Variable.Named (v : Variable α) : Prop where
  name : Fcl.Admitted (Fcl.spacedWords v.name.toList)
  terms : ∀ t ∈ v.terms, Fcl.Admitted (Fcl.spacedWords t.name.toList)

theorem Variable.named_of_check {v : Variable α} (h : Fcl.checkVariable v = .ok ()) :
    v.Named := by
  obtain ⟨_, hname, hterms⟩ := bind_eq_ok.mp h
  exact ⟨Fcl.admitted_of_checkName hname,
    fun t ht => Fcl.admitted_of_checkName (forM_eq_ok.mp hterms t ht)⟩

/-- The names of a controller, of its variables and of their terms read back as themselves. -/
structure Controller.Named (c : Controller α) : Prop where
  name : c.name ≠ "" → Fcl.Admitted (Fcl.spacedWords c.name.toList)
  inputs : ∀ v ∈ c.inputs, v.Named
  outputs : ∀ o ∈ c.outputs, o.toVariable.Named

theorem Controller.named_of_check {c : Controller α} (h : Fcl.checkNames c = .ok ()) : c.Named := by
  have hvariables (h : (c.inputs.forM Fcl.checkVariable >>= fun _ =>
      c.outputs.forM fun o => Fcl.checkVariable o.toVariable) = .ok ()) :
      (∀ v ∈ c.inputs, v.Named) ∧ ∀ o ∈ c.outputs, o.toVariable.Named := by
    obtain ⟨_, hinputs, houtputs⟩ := bind_eq_ok.mp h
    exact ⟨fun v hv => Variable.named_of_check (forM_eq_ok.mp hinputs v hv),
      fun o ho => Variable.named_of_check (forM_eq_ok.mp houtputs o ho)⟩
  unfold Fcl.checkNames at h
  dsimp only at h
  split at h
  · obtain ⟨_, hname, h⟩ := bind_eq_ok.mp h
    obtain ⟨hinputs, houtputs⟩ := hvariables h
    exact ⟨fun _ => Fcl.admitted_of_checkName hname, hinputs, houtputs⟩
  · rename_i hempty
    obtain ⟨hinputs, houtputs⟩ := hvariables h
    exact ⟨fun hname => absurd hname hempty, hinputs, houtputs⟩

end FuzzyInference
