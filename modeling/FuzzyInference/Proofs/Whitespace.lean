import FuzzyInference.Proofs.RespacedLines
import FuzzyInference.Proofs.Runnable

/-!
# Blanks between words

A run of blanks inside of a line may be replaced by a single space, unless it stands inside of a
name: names are looked up as they stand, and only those of a condition are put together from their
words.
-/

namespace FuzzyInference

/-- The same state and notices, and the same answer or faults at the same place. -/
structure SameOutcome {σ β : Type} (o o' : Outcome σ β) : Prop where
  state : o.state = o'.state
  notices : o.notices = o'.notices
  answer : SameAnswer o.answer o'.answer

namespace SameOutcome

variable {σ β γ : Type}

theorem refl (o : Outcome σ β) : SameOutcome o o := ⟨rfl, rfl, .refl o.answer⟩

theorem andThen {act act' : Action σ β} {next next' : β → Action σ γ} {s : σ}
    (h : SameOutcome (act s) (act' s))
    (hnext : ∀ b t, (act s).answer = .ok b → (act s).state = t →
      SameOutcome (next b t) (next' b t)) :
    SameOutcome (act.andThen next s) (act'.andThen next' s) := by
  unfold Action.andThen
  generalize hact : act s = o at h hnext
  generalize act' s = o' at h
  obtain ⟨t, notices, answer⟩ := o
  obtain ⟨t', notices', answer'⟩ := o'
  obtain ⟨rfl, rfl, hanswer⟩ := h
  cases hanswer with
  | ok b =>
    obtain ⟨hstate, hnotices, hanswer⟩ := hnext b t rfl rfl
    exact ⟨hstate, congrArg (notices ++ ·) hnotices, hanswer⟩
  | fault f => exact ⟨rfl, rfl, .fault f⟩
  | line number line line' problem problem' => exact ⟨rfl, rfl, .line _ _ _ _ _⟩

theorem changeNoting {f g : σ → Except Fault (σ × List Notice)} {s : σ}
    (h : SameAnswer (f s) (g s)) :
    SameOutcome (Action.changeNoting f s) (Action.changeNoting g s) := by
  unfold Action.changeNoting
  generalize f s = x at h
  generalize g s = y at h
  cases h with
  | ok b => exact .refl _
  | fault f => exact .refl _
  | line number line line' problem problem' => exact ⟨rfl, rfl, .line _ _ _ _ _⟩

end SameOutcome

namespace Fcl

open Text

variable {α : Type} [Scalar α]

/-! ## Lines of a text with a gap -/

theorem linesFrom_end {line : List Char} (h : line ≠ []) : linesFrom line [] = [line.reverse] := by
  rw [linesFrom, if_neg (by simpa using h)]

theorem linesFrom_word {c : Char} (hc : isLineBreak c = false) (line rest : List Char) :
    linesFrom line (c :: rest) = linesFrom (c :: line) rest :=
  linesFrom_append (List.forall_mem_singleton.mpr hc) line rest

-- What comes before a character inside of a line is cut into lines of its own.
theorem exists_linesFrom {c : Char} (hc : isLineBreak c = false) (line before : List Char) :
    ∃ earlier begun, begun ≠ [] ∧ ∀ rest,
      linesFrom line (before ++ c :: rest) = earlier ++ linesFrom begun rest := by
  -- a carriage return is joined to what follows it in front of the character only
  have hopen {b : Char} {before rest more : List Char}
      (hnot : ∀ more, b = '\r' → before = '\n' :: more → False) (hb : b = '\r') :
      before ++ c :: rest ≠ '\n' :: more := by
    intro heq
    cases before with
    | nil =>
      obtain rfl := (List.cons.inj heq).1
      exact absurd hc (by decide)
    | cons e before => exact hnot before hb (by rw [(List.cons.inj heq).1])
  fun_induction linesFrom line before with
  | case1 line | case2 line =>
    exact ⟨[], c :: line, List.cons_ne_nil _ _, linesFrom_word hc line⟩
  | case3 line rest ih =>
    obtain ⟨earlier, begun, hbegun, hlines⟩ := ih
    exact ⟨line.reverse :: earlier, begun, hbegun, fun rest => congrArg (_ :: ·) (hlines rest)⟩
  | case4 line b before hnot hbreak ih =>
    obtain ⟨earlier, begun, hbegun, hlines⟩ := ih
    refine ⟨line.reverse :: earlier, begun, hbegun, fun rest => ?_⟩
    rw [List.cons_append, linesFrom.eq_3 _ _ _ fun _ hb => hopen hnot hb, if_pos hbreak, hlines,
      List.cons_append]
  | case5 line b before hnot hbreak ih =>
    obtain ⟨earlier, begun, hbegun, hlines⟩ := ih
    refine ⟨earlier, begun, hbegun, fun rest => ?_⟩
    rw [List.cons_append, linesFrom_word (by simpa using hbreak), hlines]

-- A line that has begun goes on up to the next boundary.
theorem exists_linesFrom_cons (rest : List Char) : ∃ more later, ∀ line, line ≠ [] →
    linesFrom line rest = (line.reverse ++ more) :: later := by
  induction rest with
  | nil => exact ⟨[], [], fun line hline => by rw [linesFrom_end hline, List.append_nil]⟩
  | cons c rest ih =>
    by_cases hc : isLineBreak c = true
    · by_cases hpair : ∃ tail, c = '\r' ∧ rest = '\n' :: tail
      · obtain ⟨tail, rfl, rfl⟩ := hpair
        exact ⟨[], linesFrom [] tail, fun line _ => by rw [linesFrom, List.append_nil]⟩
      · refine ⟨[], linesFrom [] rest, fun line _ => ?_⟩
        rw [linesFrom.eq_3 _ _ _ fun tail hb htail => hpair ⟨tail, hb, htail⟩, if_pos hc,
          List.append_nil]
    · obtain ⟨more, later, hlines⟩ := ih
      refine ⟨c :: more, later, fun line _ => ?_⟩
      rw [linesFrom_word (by simpa using hc), hlines _ (List.cons_ne_nil _ _), List.reverse_cons,
        List.append_assoc, List.singleton_append]

theorem exists_lines_gap {c d : Char} (hc : isLineBreak c = false) (hd : isLineBreak d = false)
    (before after : List Char) : ∃ earlier first last later,
      (lines (before ++ [c])).length = earlier.length + 1 ∧
      ∀ gap : List Char, (∀ b ∈ gap, isLineBreak b = false) →
        lines (before ++ c :: (gap ++ d :: after)) =
          earlier ++ (first ++ gap ++ d :: last) :: later := by
  obtain ⟨earlier, begun, hbegun, hlines⟩ := exists_linesFrom hc [] before
  obtain ⟨last, later, hlast⟩ := exists_linesFrom_cons after
  refine ⟨earlier, begun.reverse, last, later, ?_, fun gap hgap => ?_⟩
  · unfold lines
    rw [hlines, linesFrom_end hbegun, List.length_append, List.length_singleton]
  · unfold lines
    rw [hlines, linesFrom_append hgap, linesFrom_word hd, hlast _ (List.cons_ne_nil _ _)]
    simp

theorem linesOf_of_lines {text raw : List Char} {earlier later : List (List Char)}
    (h : lines text = earlier ++ raw :: later) :
    linesOf text = (earlier.zipIdx.map fun (raw, i) => Line.ofRaw (i + 1) raw) ++
      Line.ofRaw (earlier.length + 1) raw ::
        ((later.zipIdx (earlier.length + 1)).map fun (raw, i) => Line.ofRaw (i + 1) raw) := by
  unfold linesOf
  rw [h, List.zipIdx_append, List.map_append, List.zipIdx_cons, Nat.zero_add]
  rfl

/-! ## Reading lines of which one is respaced -/

variable {line line' : Line} {p : Progress α}

theorem forEach_same (h : RespacedLine line line') (earlier later : List Line)
    (htidy : ∀ place ∈ placed p.openBlock (earlier ++ line :: later),
      place.2.number = line.number → Tidy place) :
    SameOutcome (Action.forEach (earlier ++ line :: later)
        (fun l => Action.changeNoting (readLine l)) p)
      (Action.forEach (earlier ++ line' :: later)
        (fun l => Action.changeNoting (readLine l)) p) := by
  -- on the lines before; each one opens the same block on both sides
  induction earlier generalizing p with
  | nil =>
    have hline := htidy (p.openBlock, line) List.mem_cons_self rfl
    exact (SameOutcome.changeNoting (readLine_same h hline)).andThen fun _ _ _ _ => .refl _
  | cons first earlier ih =>
    refine (SameOutcome.refl _).andThen fun _ q hanswer hstate => ih fun place hplace => ?_
    obtain ⟨notices, hread⟩ := Action.leads_changeNoting.mp (Action.leads_of_answer hanswer)
    rw [hstate] at hread
    rw [(adds_of_readLine hread).block] at hplace
    exact htidy place (List.mem_cons_of_mem _ hplace)

theorem lastSpoken_number (h : RespacedLine line line') (earlier later : List Line) :
    (lastSpoken (earlier ++ line :: later)).number =
      (lastSpoken (earlier ++ line' :: later)).number := by
  have hnumber (lines : List Line) : (lastSpoken lines).number =
      (((lines.filter (!·.content.isEmpty)).map (·.number)).getLast?).getD lines.length := by
    unfold lastSpoken
    rw [List.getLast?_map]
    cases (lines.filter (!·.content.isEmpty)).getLast? with
    | none => rfl
    | some _ => rfl
  rw [hnumber, hnumber, List.filter_append, List.filter_append, List.filter_cons, List.filter_cons,
    h.content_isEmpty]
  split_ifs
  · simp [h.number]
  · simp

theorem readLines_same (h : RespacedLine line line') (earlier later : List Line)
    (htidy : ∀ place ∈ placed p.openBlock (earlier ++ line :: later),
      place.2.number = line.number → Tidy place) :
    SameOutcome (readLines (earlier ++ line :: later) p)
      (readLines (earlier ++ line' :: later) p) := by
  refine (forEach_same h earlier later htidy).andThen fun _ q _ _ => ⟨rfl, rfl, ?_⟩
  show SameAnswer (checkEnd _ q) (checkEnd _ q)
  unfold checkEnd
  split
  · exact .refl _
  · unfold Line.fault
    rw [lastSpoken_number h]
    exact .line _ _ _ _ _

end Fcl

namespace Controller

open Text

variable {α : Type} [Scalar α]

theorem readFcl_same {base : Controller α} {text text' : List Char}
    (h : SameOutcome (Fcl.readFor base text) (Fcl.readFor base text')) :
    SameOutcome (base.readFcl text) (base.readFcl text') := by
  change SameOutcome (Fcl.readLines _ (Fcl.Progress.start base.config base.operators))
    (Fcl.readLines _ (Fcl.Progress.start base.config base.operators)) at h
  unfold readFcl
  generalize Fcl.readLines (Fcl.linesOf text) (Fcl.Progress.start base.config base.operators) =
    read at h ⊢
  generalize Fcl.readLines (Fcl.linesOf text') (Fcl.Progress.start base.config base.operators) =
    read' at h ⊢
  obtain ⟨p, notices, answer⟩ := read
  obtain ⟨p', notices', answer'⟩ := read'
  obtain ⟨rfl, rfl, hanswer⟩ := h
  cases hanswer with
  | ok => exact .refl _
  | fault f => exact .refl _
  | line => exact ⟨rfl, rfl, .line _ _ _ _ _⟩

/-- A run of spaces and tabs between two other characters of a line may be replaced by a single
space: what is read stays the same, or a fault stays in its line.  For this the names that the line
gives have to be words between single spaces, and a rule that it gives has to have a number. -/
theorem readFcl_respaced (base : Controller α) (before run after : List Char) {c d : Char}
    (hc : isBlank c = false) (hd : isBlank d = false) (hrun : run ≠ [])
    (hblanks : ∀ b ∈ run, b = ' ' ∨ b = '\t')
    (htidy : ∀ place ∈ Fcl.placed none (Fcl.linesOf (before ++ c :: (run ++ d :: after))),
      place.2.number = (lines (before ++ [c])).length → Fcl.Tidy place) :
    SameOutcome (base.readFcl (before ++ c :: (run ++ d :: after)))
      (base.readFcl (before ++ c :: ' ' :: d :: after)) := by
  obtain ⟨earlier, first, last, later, hnumber, hlines⟩ := Fcl.exists_lines_gap
    (Fcl.not_lineBreak_of_not_blank hc) (Fcl.not_lineBreak_of_not_blank hd) before after
  have hgap : ∀ b ∈ run, isBlank b = true ∧ isLineBreak b = false := by
    intro b hb
    rcases hblanks b hb with rfl | rfl
    · decide
    · decide
  have hspace := hlines [' '] (by decide)
  have htext := Fcl.linesOf_of_lines (hlines run fun b hb => (hgap b hb).2)
  rw [htext, hnumber] at htidy
  -- only the line with the run changes, and only in this run
  have hline : Fcl.RespacedLine (.ofRaw (earlier.length + 1) (first ++ run ++ d :: last))
      (.ofRaw (earlier.length + 1) (first ++ [' '] ++ d :: last)) := by
    have hrespaced := Fcl.Respaced.run ⟨hrun, fun b hb => (hgap b hb).1⟩
      (Fcl.isRun_singleton (by decide)) (.inr rfl) .nil
    rw [List.append_nil, List.append_nil] at hrespaced
    exact ⟨rfl, Fcl.content_of_respaced (((Fcl.Respaced.refl first).append hrespaced).append
      (.refl _))⟩
  refine readFcl_same ?_
  have hread : SameOutcome (Fcl.readLines _ (Fcl.Progress.start base.config base.operators)) _ :=
    Fcl.readLines_same hline _ _ htidy
  rwa [← htext, ← Fcl.linesOf_of_lines hspace] at hread

/-- The text of a lamp up to the term in the condition of its rule. -/
def lampFront : List Char :=
  (["VAR_INPUT", "sky:R;", "END_VAR", "VAR_OUTPUT", "lamp:R;", "END_VAR",
    "FUZZIFY sky", "TERM dark := (0,1);", "END_FUZZIFY",
    "DEFUZZIFY lamp", "TERM on := (2,1);", "END_DEFUZZIFY", "RULEBLOCK"].flatMap
    fun line => line.toList ++ ['\n']) ++ "RULE 1 : IF sky IS dark".toList

/-- What follows that term, but for the blanks. -/
def lampBack : List Char := "THEN lamp IS on;\nEND_RULEBLOCK\n".toList

set_option maxRecDepth 100000 in
theorem readFcl_respaced_lamp :
    (∀ place ∈ Fcl.placed none (Fcl.linesOf (lampFront ++ [' ', '\t'] ++ lampBack)),
      place.2.number = (lines lampFront).length → Fcl.Tidy place) ∧
    ((ofConfig lampConfig "").readFcl lampText).answer = .ok () ∧
    SameOutcome ((ofConfig lampConfig "").readFcl (lampFront ++ [' ', '\t'] ++ lampBack))
      ((ofConfig lampConfig "").readFcl lampText) := by
  have hall : (Fcl.placed none (Fcl.linesOf (lampFront ++ [' ', '\t'] ++ lampBack))).all
      (fun place => decide (place.2.number = (lines lampFront).length → Fcl.Tidy place)) =
        true := by cbv
  have htidy := fun place hplace => of_decide_eq_true (List.all_eq_true.mp hall place hplace)
  exact ⟨htidy, by cbv, readFcl_respaced (ofConfig lampConfig "") lampFront.dropLast [' ', '\t']
    lampBack.tail (by decide) (by decide) (by decide) (by decide) htidy⟩

set_option maxRecDepth 100000 in
/-- Where a name is declared with a run of blanks in it, it is another name than the one with a
single space, and the block that describes the latter is refused. -/
theorem readFcl_gap_refused : ∃ (before run after : List Char) (c d : Char),
    isBlank c = false ∧ isBlank d = false ∧ run ≠ [] ∧ (∀ b ∈ run, b = ' ' ∨ b = '\t') ∧
      ((ofConfig lampConfig "").readFcl (before ++ c :: (run ++ d :: after))).answer =
        .error (.unreadable 4 "FUZZIFY room temp" (.undeclaredInput "room temp")) ∧
      ((ofConfig lampConfig "").readFcl (before ++ c :: ' ' :: d :: after)).answer = .ok () := by
  refine ⟨"VAR_INPUT\nroo".toList, [' ', ' '],
    "emp:R;\nEND_VAR\nFUZZIFY room temp\nEND_FUZZIFY\n".toList, 'm', 't', by decide, by decide,
    by decide, by decide, ?_, ?_⟩
  · cbv
  · cbv

end Controller

end FuzzyInference
