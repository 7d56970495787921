import Mathlib
import FuzzyInference.Proofs.LineFaults

/-!
# Texts that are refused

A text that is refused is refused for one of its lines, or for a name that the controller has
already.  The line that a diagnosis names is the first that cannot be read, so that what follows it
makes no difference, or the last that says something, where the text ends inside a block.
-/

namespace FuzzyInference

namespace Fcl

/-! ## The lines of a text by their places -/

theorem getElem?_linesOf (text : List Char) (i : Nat) :
    (linesOf text)[i]? = (Text.lines text)[i]?.map (Line.ofRaw (i + 1)) := by
  unfold linesOf
  rw [List.getElem?_map, List.getElem?_zipIdx, Option.map_map, Nat.zero_add]
  rfl

-- Texts with the same first lines.
theorem take_linesOf {text text' : List Char} {n : Nat}
    (h : (Text.lines text').take n = (Text.lines text).take n) :
    (linesOf text').take n = (linesOf text).take n := by
  refine List.ext_getElem? fun i => ?_
  rw [List.getElem?_take, List.getElem?_take]
  split
  · rename_i hi
    have hraw : (Text.lines text')[i]? = (Text.lines text)[i]? := by
      rw [← List.getElem?_take_of_lt hi, h, List.getElem?_take_of_lt hi]
    rw [getElem?_linesOf, getElem?_linesOf, hraw]
  · rfl

/-- A line of a text has the number of its place, counted from one. -/
theorem exists_raw {text : List Char} {before after : List Line} {line : Line}
    (h : linesOf text = before ++ line :: after) : ∃ raw,
      (Text.lines text)[before.length]? = some raw ∧
        line = Line.ofRaw (before.length + 1) raw := by
  have hplace := getElem?_linesOf text before.length
  rw [h, List.getElem?_append_right (Nat.le_refl _), Nat.sub_self] at hplace
  obtain ⟨raw, hraw, hline⟩ := Option.map_eq_some_iff.mp hplace.symm
  exact ⟨raw, hraw, hline.symm⟩

-- The lines behind a place.
theorem content_of_mem_drop {text : List Char} {before after : List Line} {line : Line}
    (h : linesOf text = before ++ line :: after) (hafter : ∀ later ∈ after, later.content = []) :
    ∀ raw ∈ (Text.lines text).drop (before.length + 1), content raw = [] := by
  intro raw hraw
  obtain ⟨j, hj⟩ := List.mem_iff_getElem?.mp hraw
  rw [List.getElem?_drop] at hj
  have hplace := getElem?_linesOf text (before.length + 1 + j)
  rw [hj, h, List.append_cons, List.getElem?_append_right (by simp)] at hplace
  exact hafter _ (List.mem_of_getElem? hplace)

theorem linesOf_of_take {text text' : List Char} {before after : List Line} {line : Line}
    (h : linesOf text = before ++ line :: after)
    (hsame : (Text.lines text').take (before.length + 1) =
      (Text.lines text).take (before.length + 1)) :
    ∃ others, linesOf text' = before ++ line :: others := by
  refine ⟨(linesOf text').drop (before.length + 1), ?_⟩
  have htake : (linesOf text).take (before.length + 1) = before ++ [line] := by
    rw [h, List.append_cons, List.take_left' (by simp)]
  rw [List.append_cons, ← htake, ← take_linesOf hsame, List.take_append_drop]

variable {α : Type} [Scalar α] {config : Config α} {p p' : Progress α}

/-! ## The first line that cannot be read -/

-- Lines without content change nothing.
theorem eq_of_silent {lines : List Line} (hlines : ∀ line ∈ lines, line.content = [])
    (h : (Action.forEach lines fun line => Action.changeNoting (readLine line)).Leads p p' ()) :
    p = p' := by
  rw [← h.state_eq]
  refine Action.moves_forEach (R := (· = ·)) (fun _ => rfl) (fun _ _ _ => Eq.trans)
    (fun line hline => ?_) p
  refine Action.moves_changeNoting (fun _ => rfl) fun q q' _ h => ?_
  unfold readLine at h
  rw [hlines line hline] at h
  exact (quiet_eq_ok.mp h).1

/-- A text that ends inside a block is refused for its last line that says something. -/
theorem exists_lastSpoken {lines : List Line} (h : ∃ line ∈ lines, line.content ≠ []) :
    ∃ before after, lines = before ++ lastSpoken lines :: after ∧
      (lastSpoken lines).content ≠ [] ∧ ∀ line ∈ after, line.content = [] := by
  obtain ⟨line, hline, hcontent⟩ := h
  have hspoken : lines.filter (!·.content.isEmpty) ≠ [] :=
    List.ne_nil_of_mem (List.mem_filter.mpr ⟨hline, by simpa using hcontent⟩)
  obtain ⟨last, hlast⟩ :=
    Option.ne_none_iff_exists'.mp (mt List.getLast?_eq_none_iff.mp hspoken)
  have heq : lastSpoken lines = last := by
    unfold lastSpoken
    rw [hlast, Option.getD_some]
  rw [heq]
  rw [List.getLast?_filter, List.find?_eq_some_iff_append] at hlast
  obtain ⟨hspoken, after, before, hlines, hsilent⟩ := hlast
  refine ⟨before.reverse, after.reverse, ?_, by simpa using hspoken, fun line hline => ?_⟩
  · rw [← List.reverse_reverse lines, hlines]
    simp
  · simpa using hsilent line (List.mem_reverse.mp hline)

/-- Lines are refused for the first that cannot be read, whatever follows it, or for the last that
says something, as they end inside a block. -/
theorem fault_of_readLines (hconfig : config.Sound) {operators : Operators} {lines : List Line}
    {f : Fault} (h : (readLines lines).Fails (.start config operators) f) :
    ∃ before line after problem, lines = before ++ line :: after ∧ f = line.fault problem ∧
      ((∃ block, problem = .unterminated block) →
        line.content ≠ [] ∧ ∀ later ∈ after, later.content = []) ∧
      ((∀ block, problem ≠ .unterminated block) →
        ∀ others, (readLines (before ++ line :: others)).Fails (.start config operators) f) := by
  rcases Action.fails_bind.mp h with heach | ⟨p, _, heach, hend⟩
  · obtain ⟨before, line, after, p, rfl, hbefore, hline⟩ := Action.fails_forEach.mp heach
    have hp : p.Kept config := (Progress.kept_start config operators).of_leads hbefore
    obtain ⟨problem, hproblem, rfl⟩ :=
      blamed_readLine hconfig hp line f (Action.fails_changeNoting.mp hline)
    refine ⟨before, line, after, problem, rfl, rfl, fun ⟨block, heq⟩ => absurd heq (hproblem block),
      fun _ others => ?_⟩
    -- the run stops before it comes to the other lines
    exact Action.fails_bind.mpr (.inl (Action.fails_forEach.mpr
      ⟨before, line, others, p, rfl, hbefore, hline⟩))
  · have hend := Action.fails_ask.mp hend
    unfold checkEnd at hend
    split at hend
    · cases hend
    · rename_i opened hopen
      -- no block would be open if no line had said anything
      have hspoken : ∃ line ∈ lines, line.content ≠ [] := by
        by_contra hsilent
        push Not at hsilent
        rw [← eq_of_silent hsilent heach] at hopen
        cases hopen
      obtain ⟨before, after, hlines, hcontent, hafter⟩ := exists_lastSpoken hspoken
      exact ⟨before, _, after, .unterminated opened.block, hlines, (Except.error.inj hend).symm,
        fun _ => ⟨hcontent, hafter⟩, fun hne => absurd rfl (hne opened.block)⟩

/-- The same for the lines of a text: the diagnosis names one of them. -/
theorem diagnosis_of_readFor {base : Controller α} (hconfig : base.config.Sound) {text : List Char}
    {f : Fault} (h : (readFor base text).answer = .error f) :
    ∃ i raw problem, (Text.lines text)[i]? = some raw ∧
      f = .unreadable (i + 1 : Nat) (String.ofList raw) problem ∧
      ((∃ block, problem = .unterminated block) → content raw ≠ [] ∧
        ∀ later ∈ (Text.lines text).drop (i + 1), content later = []) ∧
      ((∀ block, problem ≠ .unterminated block) → ∀ text' : List Char,
        (Text.lines text').take (i + 1) = (Text.lines text).take (i + 1) →
        (readFor base text').answer = .error f) := by
  obtain ⟨before, line, after, problem, hlines, rfl, hend, hlocal⟩ :=
    fault_of_readLines hconfig h
  obtain ⟨raw, hraw, rfl⟩ := exists_raw hlines
  refine ⟨before.length, raw, problem, hraw, rfl, fun hblock => ?_, fun hblock text' hsame => ?_⟩
  · obtain ⟨hcontent, hafter⟩ := hend hblock
    exact ⟨hcontent, content_of_mem_drop hlines hafter⟩
  · obtain ⟨others, hothers⟩ := linesOf_of_take hlines hsame
    unfold readFor
    rw [hothers]
    exact hlocal hblock others

/-! ## What is refused for its names -/

theorem readFcl_of_fails {base : Controller α} {text : List Char} {f : Fault}
    (h : (readFor base text).answer = .error f) : (base.readFcl text).answer = .error f := by
  unfold readFor at h
  unfold Controller.readFcl
  dsimp only
  rw [h]

theorem readFcl_of_taken {base : Controller α} {text : List Char}
    (hread : (readFor base text).answer = .ok ())
    (htaken : ¬ ∀ name ∈ (readFor base text).state.controller.names, name ∉ base.names) :
    ∃ name ∈ (readFor base text).state.controller.names, name ∈ base.names ∧
      (base.readFcl text).answer = .error (.misconfigured (.duplicateVariable name)) := by
  cases hcheck : checkDisjoint base (readFor base text).state.controller with
  | ok _ => exact absurd (checkDisjoint_eq_ok.mp hcheck) htaken
  | error f =>
    obtain ⟨name, hname, hnew⟩ := exists_of_forM_eq_error hcheck
    unfold Controller.checkNew at hnew
    split at hnew
    · rename_i hdeclares
      refine ⟨name, hname, Controller.declares_iff.mp hdeclares, ?_⟩
      unfold readFor at hread hcheck
      unfold Controller.readFcl
      dsimp only
      rw [hread]
      dsimp only
      rw [hcheck, ← Except.error.inj hnew]
    · cases hnew

/-- How reading a text into a controller ends. -/
theorem answer_readFcl (base : Controller α) (text : List Char) :
    (∃ f, (readFor base text).answer = .error f ∧ (base.readFcl text).answer = .error f) ∨
      ((readFor base text).answer = .ok () ∧
        (∀ name ∈ (readFor base text).state.controller.names, name ∉ base.names) ∧
        (base.readFcl text).answer = .ok ()) ∨
      ((readFor base text).answer = .ok () ∧
        ∃ name ∈ (readFor base text).state.controller.names, name ∈ base.names ∧
          (base.readFcl text).answer = .error (.misconfigured (.duplicateVariable name))) := by
  cases hread : (readFor base text).answer with
  | error f => exact .inl ⟨f, rfl, readFcl_of_fails hread⟩
  | ok _ =>
    by_cases hdisjoint : ∀ name ∈ (readFor base text).state.controller.names, name ∉ base.names
    · obtain ⟨notices, hjoined⟩ := readFcl_of_disjoint hread hdisjoint
      exact .inr (.inl ⟨rfl, hdisjoint, congrArg Outcome.answer hjoined⟩)
    · exact .inr (.inr ⟨rfl, readFcl_of_taken hread hdisjoint⟩)

end Fcl

namespace Controller

variable {α : Type} [Scalar α]

/-- The settings of a controller, and nothing else of it. -/
def emptied (base : Controller α) : Controller α :=
  { ofConfig base.config "" with operators := base.operators }

/-- What a text makes by itself, under the settings of a controller. -/
theorem readFcl_emptied {base : Controller α} {text : List Char}
    (h : (Fcl.readFor base text).answer = .ok ()) :
    (base.emptied.readFcl text).answer = .ok () ∧
      (base.emptied.readFcl text).state.names = (Fcl.readFor base text).state.controller.names := by
  have hread : (Fcl.readFor base.emptied text).answer = .ok () := h
  obtain ⟨notices, hjoined⟩ := Fcl.readFcl_of_disjoint hread fun _ _ => List.not_mem_nil
  rw [hjoined]
  exact ⟨rfl, rfl⟩

/-- Reading a text into a controller with a sound configuration succeeds, or it is refused for one
of its lines, or, if the text can be read by itself, for a name that the controller has already; it
is never refused for anything else.  The line that is named is one of the text.  If the text ends
inside a block, it is the last line that says something; otherwise every text that begins with the
same lines, up to this one, is refused in the same way. -/
theorem readFcl_diagnosed {base : Controller α} (hconfig : base.config.Sound) (text : List Char) :
    ((∃ k line problem, (base.emptied.readFcl text).answer = .error (.unreadable k line problem) ∧
          (base.readFcl text).answer = .error (.unreadable k line problem)) ∨
        ((base.emptied.readFcl text).answer = .ok () ∧
          (∀ name ∈ (base.emptied.readFcl text).state.names, name ∉ base.names) ∧
          (base.readFcl text).answer = .ok ()) ∨
        ((base.emptied.readFcl text).answer = .ok () ∧
          ∃ name ∈ (base.emptied.readFcl text).state.names, name ∈ base.names ∧
            (base.readFcl text).answer = .error (.misconfigured (.duplicateVariable name)))) ∧
      ∀ k line problem, (base.readFcl text).answer = .error (.unreadable k line problem) →
        ∃ i raw, (Text.lines text)[i]? = some raw ∧ k = (i + 1 : Nat) ∧
          line = String.ofList raw ∧
          ((∃ block, problem = .unterminated block) → Fcl.content raw ≠ [] ∧
            ∀ later ∈ (Text.lines text).drop (i + 1), Fcl.content later = []) ∧
          ((∀ block, problem ≠ .unterminated block) → ∀ text' : List Char,
            (Text.lines text').take (i + 1) = (Text.lines text).take (i + 1) →
            (base.readFcl text').answer = .error (.unreadable k line problem)) := by
  have hfault {f : Fault} (h : (Fcl.readFor base text).answer = .error f) :=
    Fcl.diagnosis_of_readFor hconfig h
  rcases Fcl.answer_readFcl base text with ⟨f, hread, hanswer⟩ | ⟨hread, hnew, hanswer⟩ |
    ⟨hread, name, hname, hbase, hanswer⟩
  · obtain ⟨i, raw, problem, hraw, rfl, hend, hlocal⟩ := hfault hread
    have hemptied : (Fcl.readFor base.emptied text).answer = .error _ := hread
    refine ⟨.inl ⟨_, _, problem, Fcl.readFcl_of_fails hemptied, hanswer⟩, ?_⟩
    intro k line problem' h
    obtain ⟨rfl, rfl, rfl⟩ := Fault.unreadable.inj (Except.error.inj (hanswer.symm.trans h))
    exact ⟨i, raw, hraw, rfl, rfl, hend, fun hblock text' hsame =>
      Fcl.readFcl_of_fails (hlocal hblock text' hsame)⟩
  · obtain ⟨halone, hnames⟩ := readFcl_emptied hread
    refine ⟨.inr (.inl ⟨halone, hnames ▸ hnew, hanswer⟩), fun k line problem h => ?_⟩
    rw [hanswer] at h
    cases h
  · obtain ⟨halone, hnames⟩ := readFcl_emptied hread
    refine ⟨.inr (.inr ⟨halone, name, hnames ▸ hname, hbase, hanswer⟩), fun k line problem h => ?_⟩
    rw [hanswer] at h
    cases h

-- A declaration without its semicolon, whatever follows it.
theorem readFcl_diagnosed_declaration :
    ∃ base : Controller Rat, base.config.Sound ∧
      (base.readFcl "VAR_INPUT\nx:R".toList).answer =
        .error (.unreadable 2 "x:R" .missingSemicolon) ∧
      ∀ text : List Char, (Text.lines text).take 2 = ["VAR_INPUT".toList, "x:R".toList] →
        (base.readFcl text).answer = .error (.unreadable 2 "x:R" .missingSemicolon) := by
  have hconfig : (ofConfig (.standard : Config Rat) "").config.Sound := ⟨⟨[], rfl⟩, 0, rfl⟩
  have hanswer : ((ofConfig (.standard : Config Rat) "").readFcl "VAR_INPUT\nx:R".toList).answer =
      .error (.unreadable 2 "x:R" .missingSemicolon) := by cbv
  have hlines : (Text.lines "VAR_INPUT\nx:R".toList).take 2 =
      ["VAR_INPUT".toList, "x:R".toList] := by decide
  obtain ⟨i, raw, -, hplace, -, -, hlocal⟩ :=
    (readFcl_diagnosed hconfig "VAR_INPUT\nx:R".toList).2 _ _ _ hanswer
  obtain rfl : i = 1 := by omega
  exact ⟨_, hconfig, hanswer, fun text htext =>
    hlocal (by simp) text (htext.trans hlines.symm)⟩

end Controller

end FuzzyInference
