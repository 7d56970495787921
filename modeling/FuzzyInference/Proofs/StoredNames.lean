import FuzzyInference.Proofs.Diagnosis
import FuzzyInference.Proofs.PointGroups
import FuzzyInference.Proofs.RespacedLines
import FuzzyInference.Proofs.Runnable

/-!
# The names that a text gives

A variable that is read from a text has a name with something in it and without blanks at its ends.
So has a term, unless blanks alone stand where its name belongs and there are two of them or more:
then one of these blanks becomes the name.
-/

namespace FuzzyInference

/-- There is something in the name, and no blanks stand at its ends. -/
def IsName (name : String) : Prop := name ≠ "" ∧ Text.trim name.toList = name.toList

instance (name : String) : Decidable (IsName name) := inferInstanceAs (Decidable (_ ∧ _))

namespace Text

variable {cs front rest mark : List Char}

/-! ## Trimmed texts -/

theorem trimLeft_of_head? (h : ∀ c ∈ cs.head?, isBlank c = false) : trimLeft cs = cs := by
  cases cs with
  | nil => rfl
  | cons c cs =>
    have hc : ¬ isBlank c = true := by simp [h c rfl]
    exact List.dropWhile_cons_of_neg hc

theorem trimRight_trimRight (cs : List Char) : trimRight (trimRight cs) = trimRight cs := by
  unfold trimRight
  rw [List.reverse_reverse, List.dropWhile_idempotent]

theorem trim_trim (cs : List Char) : trim (trim cs) = trim cs := by
  show trimRight (trimLeft (trim cs)) = trim cs
  rw [trimLeft_of_head? (Fcl.head?_trim cs)]
  exact trimRight_trimRight (trimLeft cs)

theorem isName_ofList_trim (h : trim cs ≠ []) : IsName (String.ofList (trim cs)) := by
  refine ⟨fun hempty => h ?_, ?_⟩
  · rw [← String.toList_ofList (l := trim cs), hempty]
    rfl
  · rw [String.toList_ofList, trim_trim]

theorem isPrefix_trimRight (cs : List Char) : trimRight cs <+: cs := by
  rw [← List.reverse_suffix]
  unfold trimRight
  rw [List.reverse_reverse]
  exact List.dropWhile_suffix _

theorem trimRight_append {d : Char} (hd : isBlank d = false) (front rest : List Char) :
    trimRight (front ++ d :: rest) = front ++ d :: trimRight rest := by
  have hmirror : trimLeft (d :: front.reverse) = d :: front.reverse :=
    trimLeft_of_head? (by simpa using hd)
  unfold trimRight
  rw [List.reverse_append, List.reverse_cons, List.append_assoc, List.singleton_append,
    List.dropWhile_append]
  split
  · rename_i hempty
    rw [show List.dropWhile isBlank (d :: front.reverse) = _ from hmirror,
      List.isEmpty_iff.mp hempty]
    simp
  · simp

-- Only blanks are trimmed from the end.
theorem exists_margin (cs : List Char) : ∃ margin, Margin margin ∧ cs = trimRight cs ++ margin := by
  refine ⟨(cs.reverse.takeWhile isBlank).reverse, fun c hc => ?_, ?_⟩
  · exact List.mem_takeWhile_imp (List.mem_reverse.mp hc)
  · unfold trimRight
    rw [← List.reverse_append, List.takeWhile_append_dropWhile, List.reverse_reverse]

/-! ## Marks in a text -/

theorem after?_eq_none_iff : after? mark cs = none ↔ ¬ mark <+: cs := by
  constructor
  · rintro hnone ⟨rest, rfl⟩
    rw [after?_append] at hnone
    cases hnone
  · intro hnot
    refine Option.eq_none_iff_forall_ne_some.mpr fun rest hrest => hnot ?_
    exact ⟨rest, (eq_append_of_after? hrest).symm⟩

theorem splitAt?_eq_none_iff (hmark : mark ≠ []) : splitAt? mark cs = none ↔ ¬ mark <:+: cs := by
  induction cs with
  | nil =>
    have hnone : after? mark [] = none := by
      rw [after?_eq_none_iff, List.prefix_nil]
      exact hmark
    rw [splitAt?.eq_def, hnone, List.infix_nil]
    exact iff_of_true rfl hmark
  | cons c cs ih =>
    rw [splitAt?.eq_def, List.infix_cons_iff, not_or, ← after?_eq_none_iff, ← ih]
    cases after? mark (c :: cs) with
    | none => simp
    | some rest => simp

end Text

namespace Fcl

open Text

variable {line : Line} {statement blanks front rest : List Char}

/-! ## Names in a statement -/

theorem isName_of_declaredName {name : String} (h : declaredName statement = .ok name) :
    IsName name := by
  unfold declaredName at h
  split at h
  · cases h
  · dsimp only at h
    split at h
    · cases h
    · rename_i hname
      rw [← Except.ok.inj h]
      exact isName_ofList_trim hname

/-- Nothing but the blanks stands between the word of a term and the marks behind its name, and
these marks do not come again. -/
def Unnamed (blanks cs : List Char) : Prop :=
  Margin blanks ∧ ∃ rest, cs = "TERM".toList ++ blanks ++ [':', '='] ++ rest ∧
    ¬ [':', '='] <:+: rest

theorem isName_of_namedParts? {text : List Char} {parts : List Char × List Char}
    (hhead : ∀ c ∈ text.head?, isBlank c = false) (h : namedParts? text = some parts) :
    IsName (String.ofList parts.1) := by
  cases text with
  | nil => cases h
  | cons c cs =>
    obtain ⟨⟨name, points⟩, -, rfl⟩ := Option.map_eq_some_iff.mp h
    have hc : isBlank c = false := hhead c rfl
    have htrim : trimRight (c :: name) = trim (c :: name) := by
      unfold trim
      rw [trimLeft_of_head? (by simpa using hc)]
    show IsName (String.ofList (trimRight (c :: name)))
    rw [htrim]
    refine isName_ofList_trim fun hnil => ?_
    have hmem := (mem_trim hc (c :: name)).mpr List.mem_cons_self
    rw [hnil] at hmem
    cases hmem

-- The marks where the name begins are the first ones, so there are no others.
theorem namedParts?_marks_eq_none_iff :
    namedParts? ([':', '='] ++ rest) = none ↔ ¬ [':', '='] <:+: rest := by
  show (splitAt? [':', '='] ('=' :: rest)).map _ = none ↔ _
  rw [Option.map_eq_none_iff, splitAt?_eq_none_iff (List.cons_ne_nil _ _), List.infix_cons_iff]
  refine not_congr (or_iff_right fun hprefix => ?_)
  cases (List.cons_prefix_cons.mp hprefix).1

/-- A statement of a term gives a name, or blanks in place of the name, of which it takes the last
one. -/
theorem isName_or_unnamed {name points : List Char}
    (h : termParts? statement = some (name, points)) : IsName (String.ofList name) ∨
      ∃ blanks b, blanks ≠ [] ∧ Unnamed (blanks ++ [b]) statement ∧ name = [b] := by
  rw [termParts?_eq] at h
  obtain ⟨tail, htail, h⟩ := Option.bind_eq_some_iff.mp h
  split at h
  · cases h
  · rcases Option.or_eq_some_iff.mp h with hnamed | ⟨hnone, hblank⟩
    · exact .inl (isName_of_namedParts? (head?_dropWhile_isBlank tail) hnamed)
    · right
      unfold blankParts? at hblank
      split at hblank
      · rename_i rest b hmarks hlast
        split at hblank
        · rename_i hlong
          obtain ⟨rfl, -⟩ := Prod.mk.inj (Option.some.inj hblank)
          obtain ⟨blanks, hblanks⟩ := List.getLast?_eq_some_iff.mp hlast
          have hrest := eq_append_of_after? hmarks
          rw [hrest, namedParts?_marks_eq_none_iff] at hnone
          refine ⟨blanks, b, fun hnil => ?_, ⟨?_, rest, ?_, hnone⟩, rfl⟩
          · rw [hblanks, hnil] at hlong
            exact absurd hlong (by simp)
          · rw [← hblanks]
            exact fun c hc => List.mem_takeWhile_imp hc
          · rw [eq_append_of_after? htail, ← hblanks, List.append_assoc, List.append_assoc,
              ← hrest]
            exact congrArg _ List.takeWhile_append_dropWhile.symm
        · cases hblank
      · cases hblank

/-- With two blanks or more the last of them is the name, and with fewer there is none. -/
theorem termParts?_of_unnamed (h : Unnamed blanks statement) : ∃ points, termParts? statement =
    if 2 ≤ blanks.length then blanks.getLast?.map fun b => ([b], points) else none := by
  obtain ⟨hblanks, rest, rfl, hrest⟩ := h
  have hmarks : ∀ c ∈ ([':', '='] ++ rest).head?, isBlank c = false := by simp; decide
  have htake : ([':', '='] ++ rest).takeWhile isBlank = [] := List.takeWhile_cons_of_neg (by decide)
  refine ⟨trimLeft rest, ?_⟩
  rw [termParts?_eq, List.append_assoc, List.append_assoc, after?_append, Option.bind_some,
    List.takeWhile_append_of_pos hblanks, trimLeft_margin hblanks, trimLeft_of_head? hmarks,
    namedParts?_marks_eq_none_iff.mpr hrest, Option.none_or, htake, List.append_nil]
  unfold blankParts?
  rw [after?_append]
  cases hlast : blanks.getLast? with
  | none =>
    rw [List.getLast?_eq_none_iff.mp hlast]
    rfl
  | some b =>
    have hne : blanks ≠ [] := by
      rintro rfl
      cases hlast
    rw [if_neg hne]
    rfl

/-! ## Lines and their statements -/

/-- The statement of a line begins as the line does, up to a character that is not trimmed. -/
theorem statement_of_append {d : Char} (hcontent : line.content = front ++ d :: rest)
    (hhead : ∀ c ∈ (front ++ d :: rest).head?, isBlank c = false) (hd : isBlank d = false)
    (hsemicolon : d ≠ ';') : line.statement = .error .missingSemicolon ∨
      ∃ more, line.statement = .ok (front ++ d :: more) ∧ more <+: rest := by
  unfold Line.statement
  rw [hcontent]
  split
  · rename_i hlast
    have hne : rest ≠ [] := by
      rintro rfl
      rw [List.getLast?_concat] at hlast
      exact hsemicolon (Option.some.inj hlast)
    refine .inr ⟨trimRight rest.dropLast, congrArg _ ?_,
      (isPrefix_trimRight _).trans (List.dropLast_prefix rest)⟩
    have hdrop : (front ++ d :: rest).dropLast = front ++ d :: rest.dropLast := by
      rw [List.dropLast_append_of_ne_nil (List.cons_ne_nil d rest),
        List.dropLast_cons_of_ne_nil hne]
    have hbegins : ∀ c ∈ (front ++ d :: rest.dropLast).head?, isBlank c = false := by
      cases front with
      | nil => simpa using hd
      | cons c front => exact hhead
    rw [hdrop]
    unfold trim
    rw [trimLeft_of_head? hbegins, trimRight_append hd]
  · exact .inl rfl

-- A statement is followed by blanks and its semicolon.
theorem content_of_statement (hhead : ∀ c ∈ line.content.head?, isBlank c = false)
    (h : line.statement = .ok statement) :
    ∃ margin, Margin margin ∧ line.content = statement ++ (margin ++ [';']) := by
  unfold Line.statement at h
  split at h
  · rename_i hlast
    obtain ⟨cs, hcontent⟩ := List.getLast?_eq_some_iff.mp hlast
    have hbegins : ∀ c ∈ cs.head?, isBlank c = false := by
      intro c hc
      refine hhead c ?_
      rw [hcontent, List.head?_append, Option.mem_def.mp hc]
      rfl
    obtain ⟨margin, hmargin, hcs⟩ := exists_margin cs
    refine ⟨margin, hmargin, ?_⟩
    rw [hcontent, List.dropLast_concat] at h
    rw [hcontent, ← Except.ok.inj h]
    unfold trim
    rw [trimLeft_of_head? hbegins, ← List.append_assoc, ← hcs]
  · cases h

-- No marks come in with a text that holds no equals sign.
theorem not_infix_append {tail : List Char} (h : ¬ [':', '='] <:+: rest) (htail : '=' ∉ tail) :
    ¬ [':', '='] <:+: rest ++ tail := by
  rintro ⟨front, back, heq⟩
  rcases List.append_eq_append_iff.mp heq with ⟨more, hrest, -⟩ | ⟨more, hmore, hrest⟩
  · exact h ⟨front, more, hrest.symm⟩
  · rcases List.eq_nil_or_concat more with rfl | ⟨more', d, rfl⟩
    · exact h ⟨front, [], by rw [List.append_nil, hmore, List.append_nil]⟩
    · have hlast := congrArg List.getLast? hmore
      have hd : d = '=' := by simpa using hlast.symm
      exact htail (by rw [hrest, hd]; simp)

theorem Unnamed.append {tail : List Char} (h : Unnamed blanks statement) (htail : '=' ∉ tail) :
    Unnamed blanks (statement ++ tail) := by
  obtain ⟨hblanks, rest, rfl, hrest⟩ := h
  exact ⟨hblanks, rest ++ tail, List.append_assoc _ _ _, not_infix_append hrest htail⟩

theorem Unnamed.of_statement (hhead : ∀ c ∈ line.content.head?, isBlank c = false)
    (h : line.statement = .ok statement) (hunnamed : Unnamed blanks statement) :
    Unnamed blanks line.content := by
  obtain ⟨margin, hmargin, hcontent⟩ := content_of_statement hhead h
  rw [hcontent]
  refine hunnamed.append fun hmem => ?_
  rcases List.mem_append.mp hmem with hmem | hmem
  · exact absurd (hmargin '=' hmem) (by decide)
  · exact absurd hmem (by decide)

theorem keyword_of_unnamed (h : Unnamed blanks line.content) : line.keyword = "TERM" := by
  obtain ⟨hblanks, rest, hcontent, -⟩ := h
  have htail : (blanks ++ ([':', '='] ++ rest)).takeWhile isWordChar = [] := by
    cases blanks with
    | nil => exact List.takeWhile_cons_of_neg (by decide)
    | cons b blanks =>
      have hb := (not_word_of_isBlank (hblanks b List.mem_cons_self)).2
      exact List.takeWhile_cons_of_neg (by simp [hb])
  unfold Line.keyword
  rw [hcontent, List.append_assoc, List.append_assoc]
  show String.ofList ('T' :: (['E', 'R', 'M'] ++ (blanks ++ ([':', '='] ++ rest))).takeWhile
    isWordChar) = "TERM"
  rw [List.takeWhile_append_of_pos (by decide), htail]
  rfl

/-- In the block, the line has nothing but blanks where the name belongs that it should give, and
too few of them in front of the marks of a term for one to become the name. -/
def Line.Nameless (line : Line) : Block → Prop
  | .inputs | .outputs => line.content.head? = some ':'
  | .fuzzify | .defuzzify => ∃ blanks, blanks.length < 2 ∧ Unnamed blanks line.content
  | .rules => False

variable {α : Type} [Scalar α] {p p' : Progress α} {notices : List Notice}

/-- What is said about a line without the name that it should give. -/
def namelessProblems : List Problem := [.missingSemicolon, .missingVariableName, .termShape]

theorem declaredName_of_nameless (h : line.content.head? = some ':') :
    ∃ problem ∈ namelessProblems, line.statement >>= declaredName = .error problem := by
  obtain ⟨rest, hcontent⟩ := List.head?_eq_some_iff.mp h
  have hcontent : line.content = [] ++ ':' :: rest := hcontent
  rcases statement_of_append hcontent (by simp; decide) (by decide) (by decide) with
    hstatement | ⟨more, hstatement, -⟩
  · rw [hstatement]
    exact ⟨.missingSemicolon, by decide, rfl⟩
  · rw [hstatement]
    refine ⟨.missingVariableName, by decide, ?_⟩
    show declaredName (':' :: more) = _
    unfold declaredName
    rw [splitAt?.eq_def, show after? [':'] (':' :: more) = some more from after?_append [':'] more]
    rfl

theorem statement_of_unnamed (h : Unnamed blanks line.content) :
    line.statement = .error .missingSemicolon ∨
      ∃ cs, line.statement = .ok cs ∧ Unnamed blanks cs := by
  obtain ⟨hblanks, rest, hcontent, hrest⟩ := h
  have hcontent : line.content = ("TERM".toList ++ blanks ++ [':']) ++ '=' :: rest := by
    rw [hcontent]
    simp
  rcases statement_of_append hcontent (by simp; decide) (by decide) (by decide) with
    hstatement | ⟨more, hstatement, hmore⟩
  · exact .inl hstatement
  · refine .inr ⟨_, hstatement, hblanks, more, by simp, fun hagain => hrest ?_⟩
    exact hagain.trans hmore.isInfix

theorem readTerm_of_nameless (h : Unnamed blanks line.content) (hshort : blanks.length < 2) :
    ∃ problem ∈ namelessProblems,
      line.statement >>= readTerm (α := α) = .error problem := by
  rcases statement_of_unnamed h with hstatement | ⟨cs, hstatement, hcs⟩
  · rw [hstatement]
    exact ⟨.missingSemicolon, by decide, rfl⟩
  · obtain ⟨points, hparts⟩ := termParts?_of_unnamed hcs
    rw [if_neg (by omega)] at hparts
    rw [hstatement]
    refine ⟨.termShape, by decide, ?_⟩
    show readTerm cs = _
    unfold readTerm
    rw [hparts]
    rfl

omit [Scalar α] in
theorem block_of_openBlock {block : Block} (h : p.openBlock = some block) :
    ∃ subject, p.block = some ⟨block, subject⟩ := by
  obtain ⟨opened, hopened, rfl⟩ := Option.map_eq_some_iff.mp h
  exact ⟨opened.subject, hopened⟩

theorem judge_of_error {β : Type} {result : Except Problem β} {problem : Problem}
    (h : result = .error problem) : line.judge result = .error (line.fault problem) := by
  rw [h]
  rfl

theorem readDeclaration_of_nameless (block : Block) (h : line.content.head? = some ':') :
    ∃ problem ∈ namelessProblems, readDeclaration line block p = .error (line.fault problem) := by
  have hkeyword : line.keyword ≠ "END_VAR" := by
    obtain ⟨rest, hcontent⟩ := List.head?_eq_some_iff.mp h
    have hword : line.keyword = "" := by
      unfold Line.keyword
      rw [hcontent]
      rfl
    rw [hword]
    decide
  obtain ⟨problem, hproblem, hname⟩ := declaredName_of_nameless h
  refine ⟨problem, hproblem, ?_⟩
  unfold readDeclaration
  rw [if_neg hkeyword, judge_of_error hname]
  rfl

theorem readFuzzify_of_nameless (name : String) (h : Unnamed blanks line.content)
    (hshort : blanks.length < 2) :
    ∃ problem ∈ namelessProblems, readFuzzify line name p = .error (line.fault problem) := by
  obtain ⟨problem, hproblem, hterm⟩ := readTerm_of_nameless (α := α) h hshort
  refine ⟨problem, hproblem, ?_⟩
  unfold readFuzzify
  rw [keyword_of_unnamed h, judge_of_error hterm]
  rfl

theorem readDefuzzify_of_nameless (name : String) (h : Unnamed blanks line.content)
    (hshort : blanks.length < 2) :
    ∃ problem ∈ namelessProblems, readDefuzzify line name p = .error (line.fault problem) := by
  obtain ⟨problem, hproblem, hterm⟩ := readTerm_of_nameless (α := α) h hshort
  refine ⟨problem, hproblem, ?_⟩
  unfold readDefuzzify
  rw [keyword_of_unnamed h, judge_of_error hterm]
  rfl

theorem Line.Nameless.content_ne_nil {block : Block} (h : line.Nameless block) :
    line.content ≠ [] := by
  intro hnil
  have hunnamed (blanks : List Char) : ¬ Unnamed blanks line.content := by
    rintro ⟨-, rest, hcontent, -⟩
    cases hnil.symm.trans hcontent
  cases block with
  | inputs | outputs =>
    rw [Nameless, hnil] at h
    cases h
  | fuzzify | defuzzify =>
    obtain ⟨blanks, -, h⟩ := h
    exact hunnamed blanks h
  | rules => exact h

/-- A line is refused if nothing stands where the name belongs that it should give. -/
theorem readLine_of_nameless {block : Block} (hopen : p.openBlock = some block)
    (h : line.Nameless block) :
    ∃ problem ∈ namelessProblems, readLine line p = .error (line.fault problem) := by
  obtain ⟨subject, hblock⟩ := block_of_openBlock hopen
  unfold readLine
  rw [if_neg (by simpa using h.content_ne_nil), hblock]
  cases block with
  | inputs => exact readDeclaration_of_nameless .inputs h
  | outputs => exact readDeclaration_of_nameless .outputs h
  | fuzzify =>
    obtain ⟨blanks, hshort, h⟩ := h
    exact readFuzzify_of_nameless subject h hshort
  | defuzzify =>
    obtain ⟨blanks, hshort, h⟩ := h
    exact readDefuzzify_of_nameless subject h hshort
  | rules => exact h.elim

end Fcl

/-! ## The names of terms -/

variable {α : Type}

/-- The names of the terms of all variables. -/
def Controller.termNames (c : Controller α) : List String :=
  c.inputs.flatMap (·.termNames) ++ c.outputs.flatMap (·.termNames)

/-- All names of terms satisfy `P`. -/
structure Controller.TermsNamed (P : String → Prop) (c : Controller α) : Prop where
  inputs : ∀ v ∈ c.inputs, ∀ name ∈ v.termNames, P name
  outputs : ∀ o ∈ c.outputs, ∀ name ∈ o.termNames, P name

namespace Controller

variable {P : String → Prop} {c c' : Controller α}

theorem TermsNamed.forall_mem (h : c.TermsNamed P) : ∀ name ∈ c.termNames, P name := by
  unfold termNames
  intro name hname
  rcases List.mem_append.mp hname with hinput | houtput
  · obtain ⟨v, hv, hname⟩ := List.mem_flatMap.mp hinput
    exact h.inputs v hv name hname
  · obtain ⟨o, ho, hname⟩ := List.mem_flatMap.mp houtput
    exact h.outputs o ho name hname

theorem TermsNamed.of_eq (h : c.TermsNamed P) (hinputs : c'.inputs = c.inputs)
    (houtputs : c'.outputs = c.outputs) : c'.TermsNamed P :=
  ⟨hinputs ▸ h.inputs, houtputs ▸ h.outputs⟩

end Controller

theorem Variable.forall_termNames_addTerm {P : String → Prop} {v : Variable α} {t : Term α}
    (hv : ∀ name ∈ v.termNames, P name) (ht : P t.name) :
    ∀ name ∈ (v.addTerm t).termNames, P name := by
  unfold termNames addTerm at *
  rw [List.map_append]
  exact List.forall_mem_append.mpr ⟨hv, List.forall_mem_singleton.mpr ht⟩

namespace Fcl

variable [Scalar α] {P : String → Prop} {p p' : Progress α} {line : Line} {notices : List Notice}

open Controller (TermsNamed)

/-- Whether a line describes a term, in the block that is open in front of it. -/
def DescribesTerm (place : Option Block × Line) : Prop :=
  (place.1 = some .fuzzify ∨ place.1 = some .defuzzify) ∧ place.2.keyword = "TERM"

/-- The line describes a term, and this is the name that it gives. -/
def GivesName (place : Option Block × Line) (name : String) : Prop :=
  DescribesTerm place ∧ ∃ statement parts, place.2.statement = .ok statement ∧
    termParts? statement = some parts ∧ name = String.ofList parts.1

theorem name_of_readTerm {statement : List Char} {t : Term α} (h : readTerm statement = .ok t) :
    ∃ parts, termParts? statement = some parts ∧ t.name = String.ofList parts.1 := by
  unfold readTerm at h
  split at h
  · cases h
  · rename_i name text hparts
    obtain ⟨points, -, h⟩ := bind_eq_ok.mp h
    dsimp only at h
    split at h
    · cases h
    · rw [← Except.ok.inj h]
      exact ⟨(name, text), hparts, rfl⟩

theorem givesName_of_readTerm {opened : Option Block} {t : Term α}
    (hdescribes : DescribesTerm (opened, line))
    (h : line.judge (line.statement >>= readTerm) = .ok t) : GivesName (opened, line) t.name := by
  obtain ⟨statement, hstatement, hread⟩ := bind_eq_ok.mp (judge_eq_ok.mp h)
  obtain ⟨parts, hparts, hname⟩ := name_of_readTerm hread
  exact ⟨hdescribes, statement, parts, hstatement, hparts, hname⟩

/-- Outside of the blocks that describe variables no step gives a term. -/
theorem Progress.Step.termsNamed (h : p.Step p') (hp : p.controller.TermsNamed P)
    (hfuzzify : p.openBlock ≠ some .fuzzify) (hdefuzzify : p.openBlock ≠ some .defuzzify) :
    p'.controller.TermsNamed P := by
  cases h with
  | set name operators => exact hp.of_eq rfl rfl
  | enter hopen hblock | leave hopen hblock => exact hp
  | describeInput hopen hnew hname | describeOutput hopen hnew hname => exact hp
  | declareInput hadd =>
    obtain ⟨-, rfl⟩ := Controller.addInput_eq_ok.mp hadd
    refine ⟨List.forall_mem_append.mpr ⟨hp.inputs, List.forall_mem_singleton.mpr ?_⟩, hp.outputs⟩
    exact List.forall_mem_nil _
  | @declareOutput name o c hname hcreate hadd =>
    obtain ⟨-, rfl⟩ := Controller.addOutput_eq_ok.mp hadd
    refine ⟨hp.inputs, List.forall_mem_append.mpr ⟨hp.outputs, List.forall_mem_singleton.mpr ?_⟩⟩
    unfold Variable.termNames
    rw [(terms_of_declaredOutput hcreate).2]
    exact List.forall_mem_nil _
  | inputTerm hopen hterm => exact absurd (openBlock_of_block hopen) hfuzzify
  | outputTerm hopen hterm => exact absurd (openBlock_of_block hopen) hdefuzzify
  | outputSetting hopen hkept => exact absurd (openBlock_of_block hopen) hdefuzzify
  | closeOutput hopen hfound hterms hbuilt => exact absurd (openBlock_of_block hopen) hdefuzzify
  | rule r hadded =>
    obtain ⟨hinputs, houtputs⟩ := Controller.variables_addRule r p.controller
    exact hp.of_eq hinputs houtputs

theorem termsNamed_of_readFuzzify {name : String} (hp : p.controller.TermsNamed P)
    (hopen : p.openBlock = some .fuzzify)
    (hname : ∀ name, GivesName (p.openBlock, line) name → P name)
    (h : readFuzzify line name p = .ok (p', notices)) : p'.controller.TermsNamed P := by
  unfold readFuzzify at h
  dsimp only at h
  split_ifs at h with hend hterm
  · obtain ⟨rfl, -⟩ := quiet_eq_ok.mp h
    exact hp
  · obtain ⟨t, ht, h⟩ := bind_eq_ok.mp h
    obtain ⟨rfl, -⟩ := quiet_eq_ok.mp h
    have hP : P t.name := hname _ (givesName_of_readTerm ⟨.inl hopen, hterm⟩ ht)
    exact ⟨forall_changeInput (fun v hv => Variable.forall_termNames_addTerm hv hP) hp.inputs,
      hp.outputs⟩

theorem termsNamed_of_closeDefuzzify {name : String} (hp : p.controller.TermsNamed P)
    (h : closeDefuzzify line name p = .ok (p', notices)) : p'.controller.TermsNamed P := by
  unfold closeDefuzzify at h
  dsimp only at h
  split at h
  · cases h
  · obtain ⟨_, -, heq⟩ := map_eq_ok.mp h
    obtain ⟨rfl, -⟩ := Prod.mk.inj heq
    refine ⟨hp.inputs, fun o' ho' => ?_⟩
    rcases Action.mem_onFirst ho' with ho' | ⟨o, ho, -, rfl⟩
    · exact hp.outputs o' ho'
    · -- building the grid keeps the names of the terms
      have hkept : (OutputVariable.buildGrid o).state.termNames = o.termNames :=
        OutputVariable.moves_buildGrid (R := fun o o' => o'.termNames = o.termNames) (fun _ => rfl)
          (fun o o' ho' => Variable.termNames_of_outline
            (congrArg Prod.fst (OutputVariable.outline_discretize ho'))) o
      rw [hkept]
      exact hp.outputs o ho

theorem termsNamed_of_readDefuzzify {name : String} (hp : p.controller.TermsNamed P)
    (hopen : p.openBlock = some .defuzzify)
    (hname : ∀ name, GivesName (p.openBlock, line) name → P name)
    (h : readDefuzzify line name p = .ok (p', notices)) : p'.controller.TermsNamed P := by
  unfold readDefuzzify at h
  dsimp only at h
  split_ifs at h with hend hterm hmethod hdefault
  · exact termsNamed_of_closeDefuzzify hp h
  · obtain ⟨t, ht, h⟩ := bind_eq_ok.mp h
    obtain ⟨rfl, -⟩ := quiet_eq_ok.mp h
    have hP : P t.name := hname _ (givesName_of_readTerm ⟨.inr hopen, hterm⟩ ht)
    exact ⟨hp.inputs, forall_changeOutput
      (fun o _ ho => Variable.forall_termNames_addTerm ho hP) hp.outputs⟩
  · obtain ⟨method, -, h⟩ := bind_eq_ok.mp h
    obtain ⟨rfl, -⟩ := quiet_eq_ok.mp h
    exact ⟨hp.inputs, forall_changeOutput (fun o _ ho => ho) hp.outputs⟩
  · obtain ⟨defaultValue, -, h⟩ := bind_eq_ok.mp h
    obtain ⟨rfl, -⟩ := quiet_eq_ok.mp h
    exact ⟨hp.inputs, forall_changeOutput (fun o _ ho => ho) hp.outputs⟩

/-- After a line that is read every name of a term was there before or is given by the line. -/
theorem termsNamed_of_readLine (hp : p.controller.TermsNamed P)
    (hname : ∀ name, GivesName (p.openBlock, line) name → P name)
    (h : readLine line p = .ok (p', notices)) : p'.controller.TermsNamed P := by
  by_cases hempty : line.content.isEmpty = true
  · unfold readLine at h
    rw [if_pos hempty] at h
    obtain ⟨rfl, -⟩ := quiet_eq_ok.mp h
    exact hp
  by_cases hfuzzify : p.openBlock = some .fuzzify
  · obtain ⟨subject, hblock⟩ := block_of_openBlock hfuzzify
    unfold readLine at h
    rw [if_neg hempty, hblock] at h
    exact termsNamed_of_readFuzzify hp hfuzzify hname h
  by_cases hdefuzzify : p.openBlock = some .defuzzify
  · obtain ⟨subject, hblock⟩ := block_of_openBlock hdefuzzify
    unfold readLine at h
    rw [if_neg hempty, hblock] at h
    exact termsNamed_of_readDefuzzify hp hdefuzzify hname h
  · exact (readLine_step h).termsNamed hp hfuzzify hdefuzzify

/-- After lines that are read one after the other every name of a term was there before or is given
by one of them. -/
theorem termsNamed_of_readEach {lines : List Line} {q : Progress α}
    (hp : p.controller.TermsNamed P)
    (hnames : ∀ place ∈ placed p.openBlock lines, ∀ name, GivesName place name → P name)
    (h : (Action.forEach lines fun line => Action.changeNoting (readLine line)).Leads p q ()) :
    q.controller.TermsNamed P := by
  induction lines generalizing p with
  | nil =>
    obtain rfl := Action.leads_forEach_nil.mp h
    exact hp
  | cons line lines ih =>
    obtain ⟨p₁, hfirst, hrest⟩ := Action.leads_forEach_cons.mp h
    obtain ⟨notices, hfirst⟩ := Action.leads_changeNoting.mp hfirst
    obtain ⟨hline, hlines⟩ := List.forall_mem_cons.mp hnames
    rw [← (adds_of_readLine hfirst).block] at hlines
    exact ih (termsNamed_of_readLine hp hline hfirst) hlines hrest

end Fcl

/-! ## Names that stay -/

theorem Action.find?_onFirst_change {ρ : Type} {found : ρ → Bool} {missing : Fault} {f : ρ → ρ}
    {items : List ρ} {x : ρ} (hx : items.find? found = some x) (hf : found (f x) = true) :
    (onFirst found missing (change fun y => .ok (f y)) items).state.find? found = some (f x) := by
  induction items with
  | nil => cases hx
  | cons y rest ih =>
    unfold onFirst
    by_cases hy : found y = true
    · rw [List.find?_cons_of_pos hy] at hx
      obtain rfl := Option.some.inj hx
      rw [if_pos hy]
      exact List.find?_cons_of_pos hf
    · rw [List.find?_cons_of_neg hy] at hx
      rw [if_neg hy]
      exact (List.find?_cons_of_neg hy).trans (ih hx)

namespace Controller

variable {c c' : Controller α} {name : String}

/-- A variable that is found by its name has a term of the name. -/
def HoldsTerm (c : Controller α) (name : String) : Prop :=
  (∃ key v, c.input? key = some v ∧ name ∈ v.termNames) ∨
    ∃ key o, c.output? key = some o ∧ name ∈ o.termNames

theorem HoldsTerm.of_resolves (h : c.HoldsTerm name) (hc : Fcl.Resolves c c') :
    c'.HoldsTerm name := by
  rcases h with ⟨key, v, hv, hname⟩ | ⟨key, o, ho, hname⟩
  · obtain ⟨v', hv', hnames⟩ := hc.inputs hv
    exact .inl ⟨key, v', hv', hnames.subset hname⟩
  · obtain ⟨o', ho', hnames⟩ := hc.outputs ho
    exact .inr ⟨key, o', ho', hnames.subset hname⟩

theorem HoldsTerm.mem_termNames (h : c.HoldsTerm name) : name ∈ c.termNames := by
  rcases h with ⟨key, v, hv, hname⟩ | ⟨key, o, ho, hname⟩
  · exact List.mem_append_left _ (List.mem_flatMap.mpr ⟨v, List.mem_of_find?_eq_some hv, hname⟩)
  · exact List.mem_append_right _ (List.mem_flatMap.mpr ⟨o, List.mem_of_find?_eq_some ho, hname⟩)

end Controller

namespace Fcl

variable [Scalar α] {p p' : Progress α} {line : Line} {notices : List Notice} {name : String}

/-- The variable that the open block describes has been declared. -/
structure Progress.Declared (p : Progress α) : Prop where
  input : ∀ {name}, p.block = some ⟨.fuzzify, name⟩ → ∃ v, p.controller.input? name = some v
  output : ∀ {name}, p.block = some ⟨.defuzzify, name⟩ → ∃ o, p.controller.output? name = some o

omit [Scalar α] in
theorem Progress.Declared.of_resolves (hp : p.Declared) (h : Resolves p.controller p'.controller)
    (hblock : p'.block = p.block) : p'.Declared := by
  constructor
  · intro name hopen
    obtain ⟨v, hv⟩ := hp.input (hblock ▸ hopen)
    obtain ⟨v', hv', -⟩ := h.inputs hv
    exact ⟨v', hv'⟩
  · intro name hopen
    obtain ⟨o, ho⟩ := hp.output (hblock ▸ hopen)
    obtain ⟨o', ho', -⟩ := h.outputs ho
    exact ⟨o', ho'⟩

omit [Scalar α] in
theorem Progress.declared_of_closed (h : p.block = none) : p.Declared :=
  ⟨fun hopen => absurd (h.symm.trans hopen) nofun, fun hopen => absurd (h.symm.trans hopen) nofun⟩

theorem Progress.Declared.step (hp : p.Declared) (h : p.Step p') : p'.Declared := by
  have hresolves := h.resolves
  cases h with
  | set | declareInput | declareOutput | inputTerm | outputTerm | outputSetting | rule =>
    exact hp.of_resolves hresolves rfl
  | leave | closeOutput => exact Progress.declared_of_closed rfl
  | enter hopen hblock =>
    refine ⟨fun h => ?_, fun h => ?_⟩
    · obtain ⟨rfl, -⟩ := OpenBlock.mk.inj (Option.some.inj h)
      exact absurd rfl hblock.1
    · obtain ⟨rfl, -⟩ := OpenBlock.mk.inj (Option.some.inj h)
      exact absurd rfl hblock.2
  | describeInput hopen hnew hname =>
    refine ⟨fun h => ?_, fun h => ?_⟩
    · obtain ⟨-, rfl⟩ := OpenBlock.mk.inj (Option.some.inj h)
      exact Option.isSome_iff_exists.mp hname
    · cases h
  | describeOutput hopen hnew hname =>
    refine ⟨fun h => ?_, fun h => ?_⟩
    · cases h
    · obtain ⟨-, rfl⟩ := OpenBlock.mk.inj (Option.some.inj h)
      exact Option.isSome_iff_exists.mp hname

omit [Scalar α] in
theorem input?_changeInput {c : Controller α} {v : Variable α} {f : Variable α → Variable α}
    (hv : c.input? name = some v) (hf : (f v).name = v.name) :
    (changeInput c name f).input? name = some (f v) := by
  have hname : (v.name == name) = true :=
    List.find?_some (p := fun v : Variable α => v.name == name) hv
  exact Action.find?_onFirst_change hv (hf ▸ hname)

omit [Scalar α] in
theorem output?_changeOutput {c : Controller α} {o : OutputVariable α}
    {f : OutputVariable α → OutputVariable α} (ho : c.output? name = some o)
    (hf : (f o).name = o.name) : (changeOutput c name f).output? name = some (f o) := by
  have hname : (o.name == name) = true :=
    List.find?_some (p := fun o : OutputVariable α => o.name == name) ho
  exact Action.find?_onFirst_change ho (hf ▸ hname)

omit [Scalar α] in
theorem mem_termNames_addTerm (v : Variable α) (t : Term α) : t.name ∈ (v.addTerm t).termNames := by
  unfold Variable.termNames Variable.addTerm
  rw [List.map_append]
  exact List.mem_append_right _ (List.mem_singleton_self t.name)

theorem holdsTerm_of_readFuzzify {key : String} (hp : p.Declared)
    (hopen : p.block = some ⟨.fuzzify, key⟩) (hdescribes : DescribesTerm (p.openBlock, line))
    (h : readFuzzify line key p = .ok (p', notices)) :
    ∃ name, GivesName (p.openBlock, line) name ∧ p'.controller.HoldsTerm name := by
  unfold readFuzzify at h
  rw [hdescribes.2] at h
  obtain ⟨t, ht, h⟩ := bind_eq_ok.mp h
  obtain ⟨rfl, -⟩ := quiet_eq_ok.mp h
  obtain ⟨v, hv⟩ := hp.input hopen
  exact ⟨t.name, givesName_of_readTerm hdescribes ht,
    .inl ⟨key, v.addTerm t, input?_changeInput hv rfl, mem_termNames_addTerm v t⟩⟩

theorem holdsTerm_of_readDefuzzify {key : String} (hp : p.Declared)
    (hopen : p.block = some ⟨.defuzzify, key⟩) (hdescribes : DescribesTerm (p.openBlock, line))
    (h : readDefuzzify line key p = .ok (p', notices)) :
    ∃ name, GivesName (p.openBlock, line) name ∧ p'.controller.HoldsTerm name := by
  unfold readDefuzzify at h
  rw [hdescribes.2] at h
  obtain ⟨t, ht, h⟩ := bind_eq_ok.mp h
  obtain ⟨rfl, -⟩ := quiet_eq_ok.mp h
  obtain ⟨o, ho⟩ := hp.output hopen
  exact ⟨t.name, givesName_of_readTerm hdescribes ht,
    .inr ⟨key, o.addTerm t, output?_changeOutput ho rfl, mem_termNames_addTerm o.toVariable t⟩⟩

theorem holdsTerm_of_readLine (hp : p.Declared) (hdescribes : DescribesTerm (p.openBlock, line))
    (h : readLine line p = .ok (p', notices)) :
    ∃ name, GivesName (p.openBlock, line) name ∧ p'.controller.HoldsTerm name := by
  have hspoken : ¬ line.content.isEmpty = true := by
    intro hempty
    have hkeyword := (keyword_of_isEmpty hempty).symm.trans hdescribes.2
    exact absurd hkeyword (by decide)
  unfold readLine at h
  rw [if_neg hspoken] at h
  rcases hdescribes.1 with hopen | hopen
  · obtain ⟨key, hblock⟩ := block_of_openBlock hopen
    rw [hblock] at h
    exact holdsTerm_of_readFuzzify hp hblock hdescribes h
  · obtain ⟨key, hblock⟩ := block_of_openBlock hopen
    rw [hblock] at h
    exact holdsTerm_of_readDefuzzify hp hblock hdescribes h

/-- Every line that describes a term gives it a name if the lines are read, and this name stays. -/
theorem holdsTerm_of_readEach {lines : List Line} {q : Progress α} (hp : p.Declared)
    (h : (Action.forEach lines fun line => Action.changeNoting (readLine line)).Leads p q ())
    {place : Option Block × Line} (hplace : place ∈ placed p.openBlock lines)
    (hdescribes : DescribesTerm place) :
    ∃ name, GivesName place name ∧ q.controller.HoldsTerm name := by
  induction lines generalizing p with
  | nil => cases hplace
  | cons line lines ih =>
    obtain ⟨p₁, hfirst, hrest⟩ := Action.leads_forEach_cons.mp h
    obtain ⟨notices, hfirst⟩ := Action.leads_changeNoting.mp hfirst
    rcases List.mem_cons.mp hplace with rfl | hplace
    · obtain ⟨name, hname, hholds⟩ := holdsTerm_of_readLine hp hdescribes hfirst
      exact ⟨name, hname, hholds.of_resolves (adds_of_readEach hrest).1⟩
    · rw [← (adds_of_readLine hfirst).block] at hplace
      exact ih (hp.step (readLine_step hfirst)) hrest hplace

/-! ## Names of accepted texts -/

/-- The line describes a term and has nothing but blanks, two of them or more, in place of the name
of the term.  This is the last of these blanks. -/
def GivesBlank (place : Option Block × Line) (name : String) : Prop :=
  DescribesTerm place ∧ ∃ blanks b, blanks ≠ [] ∧ Unnamed (blanks ++ [b]) place.2.content ∧
    name = String.ofList [b]

theorem GivesName.isName_or_givesBlank {place : Option Block × Line}
    (hhead : ∀ c ∈ place.2.content.head?, Text.isBlank c = false) (h : GivesName place name) :
    IsName name ∨ GivesBlank place name := by
  obtain ⟨hdescribes, statement, ⟨given, points⟩, hstatement, hparts, rfl⟩ := h
  rcases isName_or_unnamed hparts with hname | ⟨blanks, b, hne, hunnamed, hgiven⟩
  · exact .inl hname
  · exact .inr ⟨hdescribes, blanks, b, hne, hunnamed.of_statement hhead hstatement,
      congrArg String.ofList hgiven⟩

theorem GivesBlank.eq {place : Option Block × Line} {name' : String} (h : GivesBlank place name)
    (h' : GivesName place name') : name' = name := by
  obtain ⟨-, blanks, b, hne, hunnamed, rfl⟩ := h
  obtain ⟨-, statement, parts, hstatement, hparts, rfl⟩ := h'
  rcases statement_of_unnamed hunnamed with hnone | ⟨cs, hcs, hunnamed⟩
  · cases hnone.symm.trans hstatement
  · obtain rfl := Except.ok.inj (hcs.symm.trans hstatement)
    obtain ⟨points, hlast⟩ := termParts?_of_unnamed hunnamed
    have hlong : 2 ≤ (blanks ++ [b]).length := by
      have := List.length_pos_iff.mpr hne
      simp only [List.length_append, List.length_singleton]
      omega
    rw [if_pos hlong, List.getLast?_concat, hparts] at hlast
    rw [Option.some.inj hlast]

theorem GivesBlank.not_isName {place : Option Block × Line} (h : GivesBlank place name) :
    ¬ IsName name := by
  obtain ⟨-, blanks, b, -, ⟨hblanks, -⟩, rfl⟩ := h
  rintro ⟨-, htrim⟩
  have hb : Text.Margin [b] := fun c hc => hblanks c (List.mem_append_right _ hc)
  rw [String.toList_ofList, Text.trim_eq_nil.mpr hb] at htrim
  cases htrim

theorem isName_of_declarationIn {block : Block} {place : Option Block × Line}
    (h : declarationIn block place = some name) : IsName name := by
  unfold declarationIn at h
  split at h
  · unfold Line.declared? at h
    split at h
    · cases h
    · cases hread : place.2.statement >>= declaredName with
      | error problem =>
        rw [hread] at h
        cases h
      | ok given =>
        rw [hread] at h
        obtain rfl : given = name := Option.some.inj h
        obtain ⟨statement, -, hname⟩ := bind_eq_ok.mp hread
        exact isName_of_declaredName hname
  · cases h

theorem mem_of_mem_placed {opened : Option Block} {lines : List Line}
    {place : Option Block × Line} (h : place ∈ placed opened lines) : place.2 ∈ lines := by
  induction lines generalizing opened with
  | nil => cases h
  | cons line lines ih =>
    rcases List.mem_cons.mp h with rfl | h
    · exact List.mem_cons_self
    · exact List.mem_cons_of_mem _ (ih h)

theorem head?_content {text : List Char} (h : line ∈ linesOf text) :
    ∀ c ∈ line.content.head?, Text.isBlank c = false := by
  obtain ⟨place, -, rfl⟩ := List.mem_map.mp h
  exact head?_trim _

end Fcl

/-- The variables of an accepted text have names with something in them and without blanks at their
ends.  So have its terms, but for those that are given blanks, and all of these blanks are stored.
A text is refused for a line that has nothing where the name belongs that it should give, or a
single blank where a term should have its name, if the lines before it can be read. -/
theorem Controller.readFcl_named [Scalar α] (config : Config α) (text : List Char) :
    (∀ c notices, (ofConfig config "").readFcl text = ⟨c, notices, .ok ()⟩ →
      (∀ name ∈ c.names, IsName name) ∧
      ∀ name, (name ∈ c.termNames ∧ ¬ IsName name) ↔
        ∃ place ∈ Fcl.placed none (Fcl.linesOf text), Fcl.GivesBlank place name) ∧
    ∀ (before after : List Fcl.Line) (line : Fcl.Line) (p : Fcl.Progress α) (block : Fcl.Block),
      Fcl.linesOf text = before ++ line :: after →
      (Action.forEach before fun line => Action.changeNoting (Fcl.readLine line)).Leads
        (.start config (ofConfig config "").operators) p () →
      p.openBlock = some block → line.Nameless block →
      ∃ problem ∈ Fcl.namelessProblems,
        ((ofConfig config "").readFcl text).answer = .error (line.fault problem) := by
  refine ⟨fun c notices h => ?_, fun before after line p block hlines hbefore hopen hline => ?_⟩
  · obtain ⟨p, rfl, -, hread⟩ := Fcl.leads_of_readFcl h
    obtain ⟨q, _, heach, hend⟩ := Action.leads_bind.mp hread
    obtain ⟨rfl, -⟩ := Action.leads_ask.mp hend
    obtain ⟨-, hinputs, houtputs, -⟩ := Fcl.adds_of_readEach heach
    refine ⟨fun name hname => ?_, fun name => ⟨fun ⟨hmem, hnot⟩ => ?_, ?_⟩⟩
    · have hdeclared : ∃ block, ∃ place ∈ Fcl.placed none (Fcl.linesOf text),
          Fcl.declarationIn block place = some name := by
        rcases List.mem_append.mp hname with hname | hname
        · rw [hinputs] at hname
          exact ⟨.inputs, List.mem_filterMap.mp hname⟩
        · rw [houtputs] at hname
          exact ⟨.outputs, List.mem_filterMap.mp hname⟩
      obtain ⟨block, place, -, hdeclared⟩ := hdeclared
      exact Fcl.isName_of_declarationIn hdeclared
    · have hnamed := Fcl.termsNamed_of_readEach
        (P := fun name => IsName name ∨
          ∃ place ∈ Fcl.placed none (Fcl.linesOf text), Fcl.GivesBlank place name)
        ⟨List.forall_mem_nil _, List.forall_mem_nil _⟩ (fun place hplace name hgives => ?_) heach
      · exact (hnamed.forall_mem name hmem).resolve_left hnot
      · have hhead := Fcl.head?_content (Fcl.mem_of_mem_placed hplace)
        exact (hgives.isName_or_givesBlank hhead).imp_right fun hblank => ⟨place, hplace, hblank⟩
    · rintro ⟨place, hplace, hblank⟩
      obtain ⟨name', hgives, hholds⟩ :=
        Fcl.holdsTerm_of_readEach (Fcl.Progress.declared_of_closed rfl) heach hplace hblank.1
      obtain rfl := hblank.eq hgives
      exact ⟨hholds.mem_termNames, hblank.not_isName⟩
  · obtain ⟨problem, hproblem, hfault⟩ := Fcl.readLine_of_nameless hopen hline
    refine ⟨problem, hproblem, Fcl.readFcl_of_fails ?_⟩
    exact Action.fails_bind.mpr (.inl (Action.fails_forEach.mpr
      ⟨before, line, after, p, hlines, hbefore, Action.fails_changeNoting.mpr hfault⟩))

/-- Two terms, the second one with two blanks in place of its name. -/
def skyText : List Char :=
  "VAR_INPUT\nsky : R;\nEND_VAR\nFUZZIFY sky\nTERM dark := (0,1);\nTERM  := (1,0);\nEND_FUZZIFY".toList

set_option maxRecDepth 100000 in
theorem Controller.readFcl_named_sky :
    (∃ c notices, (ofConfig lampConfig "").readFcl skyText = ⟨c, notices, .ok ()⟩ ∧
      c.names = ["sky"] ∧ IsName "sky" ∧ c.termNames = ["dark", " "] ∧
      ∃ place ∈ Fcl.placed none (Fcl.linesOf skyText), Fcl.GivesBlank place " ") ∧
    ∃ problem ∈ Fcl.namelessProblems,
      ((ofConfig lampConfig "").readFcl "VAR_INPUT\n : R;\nEND_VAR".toList).answer =
        .error (.unreadable 2 " : R;" problem) := by
  constructor
  · have hread : (fun o => (o.answer, o.state.names, o.state.termNames))
        ((ofConfig lampConfig "").readFcl skyText) = (.ok (), ["sky"], ["dark", " "]) := by cbv
    generalize hrun : (ofConfig lampConfig "").readFcl skyText = run at hread
    obtain ⟨c, notices, answer⟩ := run
    obtain ⟨rfl, hnames, hterms⟩ : answer = _ ∧ c.names = _ ∧ c.termNames = _ := by simpa using hread
    obtain ⟨hvariables, hblanks⟩ := (readFcl_named lampConfig skyText).1 c notices hrun
    refine ⟨c, notices, rfl, hnames, hvariables "sky" (by simp [hnames]), hterms, ?_⟩
    exact (hblanks " ").mp ⟨by simp [hterms], by decide⟩
  · have hlines : Fcl.linesOf "VAR_INPUT\n : R;\nEND_VAR".toList =
        [.ofRaw 1 "VAR_INPUT".toList] ++ .ofRaw 2 " : R;".toList :: [.ofRaw 3 "END_VAR".toList] := by
      cbv
    have hfirst : (Action.forEach [.ofRaw 1 "VAR_INPUT".toList] fun line =>
        Action.changeNoting (Fcl.readLine line)).Leads
          (.start lampConfig (ofConfig lampConfig "").operators)
          ((Fcl.Progress.start lampConfig (ofConfig lampConfig "").operators).opened .inputs "") () :=
      ⟨[], by cbv⟩
    exact (readFcl_named lampConfig _).2 _ _ _ _ .inputs hlines hfirst rfl (by cbv)

set_option maxRecDepth 100000 in
/-- Two blanks in front of the marks are enough for a term whose name is a blank. -/
theorem Controller.readFcl_blank_stored : ∃ c notices,
    (ofConfig (.standard : Config Rat) "").readFcl
      ("FUNCTION_BLOCK\nVAR_INPUT\n    x : REAL;\nEND_VAR\nFUZZIFY x\n    TERM  := (0, 1);\n" ++
        "END_FUZZIFY\nEND_FUNCTION_BLOCK\n").toList = ⟨c, notices, .ok ()⟩ ∧
    c.termNames = [" "] ∧ ¬ IsName " " := by
  have hread : (fun o => (o.answer, o.state.termNames))
      ((ofConfig (.standard : Config Rat) "").readFcl
        ("FUNCTION_BLOCK\nVAR_INPUT\n    x : REAL;\nEND_VAR\nFUZZIFY x\n    TERM  := (0, 1);\n" ++
          "END_FUZZIFY\nEND_FUNCTION_BLOCK\n").toList) = (.ok (), [" "]) := by cbv
  generalize (ofConfig (.standard : Config Rat) "").readFcl _ = run at hread
  obtain ⟨c, notices, answer⟩ := run
  obtain ⟨rfl, hterms⟩ := Prod.mk.inj hread
  exact ⟨c, notices, rfl, hterms, by decide⟩

end FuzzyInference
