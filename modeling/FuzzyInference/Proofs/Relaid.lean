import FuzzyInference.Proofs.Diagnosis
import FuzzyInference.Proofs.Layout

/-!
# Texts that are laid out anew

What a line does depends on what it says, and its number and its characters come up in faults only.
So a text may be laid out anew: what is read stays the same, or the same problem is found in the
line that the faulty one has become.
-/

namespace FuzzyInference

/-! ## Outcomes with related faults -/

/-- The same answer, or related faults. -/
inductive Matches {β : Type} (related : Fault → Fault → Prop) :
    Except Fault β → Except Fault β → Prop where
  | ok (b : β) : Matches related (.ok b) (.ok b)
  | error {f f' : Fault} : related f f' → Matches related (.error f) (.error f')

/-- The same state and notices, and the same answer or related faults. -/
structure Outcome.Matches {σ β : Type} (related : Fault → Fault → Prop) (o o' : Outcome σ β) :
    Prop where
  state : o.state = o'.state
  notices : o.notices = o'.notices
  answer : FuzzyInference.Matches related o.answer o'.answer

namespace Outcome.Matches

variable {σ β γ : Type} {related : Fault → Fault → Prop}

theorem andThen {act act' : Action σ β} {next next' : β → Action σ γ} {s : σ}
    (h : (act s).Matches related (act' s))
    (hnext : ∀ b t, (act s).answer = .ok b → (act s).state = t →
      (next b t).Matches related (next' b t)) :
    (act.andThen next s).Matches related (act'.andThen next' s) := by
  unfold Action.andThen
  generalize act s = o at h hnext
  generalize act' s = o' at h
  obtain ⟨t, notices, answer⟩ := o
  obtain ⟨t', notices', answer'⟩ := o'
  obtain ⟨rfl, rfl, hanswer⟩ := h
  cases hanswer with
  | ok b =>
    obtain ⟨hstate, hnotices, hanswer⟩ := hnext b t rfl rfl
    exact ⟨hstate, congrArg (notices ++ ·) hnotices, hanswer⟩
  | error hfault => exact ⟨rfl, rfl, .error hfault⟩

theorem changeNoting {f g : σ → Except Fault (σ × List Notice)} {s : σ}
    (h : FuzzyInference.Matches related (f s) (g s)) :
    (Action.changeNoting f s).Matches related (Action.changeNoting g s) := by
  unfold Action.changeNoting
  generalize f s = x at h
  generalize g s = y at h
  cases h with
  | ok b => exact ⟨rfl, rfl, .ok ()⟩
  | error hfault => exact ⟨rfl, rfl, .error hfault⟩

theorem eq_of_ok {o o' : Outcome σ β} (h : o.Matches related o') {b : β} (hb : o.answer = .ok b) :
    o = o' := by
  obtain ⟨s, notices, answer⟩ := o
  obtain ⟨s', notices', answer'⟩ := o'
  obtain ⟨rfl, rfl, hanswer⟩ := h
  obtain rfl : answer = .ok b := hb
  cases hanswer
  rfl

theorem exists_of_error {o o' : Outcome σ β} (h : o.Matches related o') {f : Fault}
    (hf : o.answer = .error f) : ∃ f', o'.answer = .error f' ∧ related f f' := by
  have hanswer := h.answer
  rw [hf] at hanswer
  generalize o'.answer = answer at hanswer
  cases hanswer with
  | error hfault => exact ⟨_, rfl, hfault⟩

end Outcome.Matches

namespace Fcl

open Text (Margin)

variable {α β γ : Type} [Scalar α] {line line' : Line} {p : Progress α}

/-! ## One line in the place of another -/

/-- A fault of any line as one of this line; other faults stay what they are. -/
def Line.own (line : Line) : Fault → Fault
  | .unreadable _ _ problem => line.fault problem
  | f => f

theorem Line.Blamed.mapError_own {x : Except Fault β} (h : line.Blamed x) :
    x.mapError line.own = x := by
  cases x with
  | ok b => rfl
  | error f =>
    obtain ⟨problem, -, rfl⟩ := h f rfl
    rfl

section Reading

variable (h : line'.content = line.content)
include h

theorem keyword_congr : line'.keyword = line.keyword := by
  unfold Line.keyword
  rw [h]

theorem subject_congr : line'.subject = line.subject := by
  unfold Line.subject
  rw [h]

theorem judge_own (f : List Char → Except Problem β) {g g' : β → Except Fault γ}
    (hg : ∀ b, line.statement >>= f = .ok b → g' b = (g b).mapError line'.own) :
    (line'.judge (line'.statement >>= f) >>= g') =
      (line.judge (line.statement >>= f) >>= g).mapError line'.own := by
  have hstatement : line'.statement = line.statement := by
    unfold Line.statement
    rw [h]
  rw [hstatement]
  cases hread : line.statement >>= f with
  | error problem => rfl
  | ok b => exact hg b hread

omit [Scalar α] in
theorem openDescription_own (block : Block) : openDescription line' block p =
    (openDescription line block p).mapError line'.own := by
  unfold openDescription
  rw [subject_congr h]
  dsimp only
  by_cases hrepeated : p.described.contains line.subject = true
  · rw [if_pos hrepeated, if_pos hrepeated]
    rfl
  · rw [if_neg hrepeated, if_neg hrepeated]
    split
    · split_ifs
      · rfl
      · rfl
    · split_ifs
      · rfl
      · rfl

omit [Scalar α] in
theorem readOutside_own : readOutside line' p = (readOutside line p).mapError line'.own := by
  unfold readOutside
  rw [keyword_congr h, subject_congr h, h]
  dsimp only
  split_ifs
  any_goals rfl
  · exact openDescription_own h _
  · exact openDescription_own h _

omit [Scalar α] h in
theorem blame_own (line : Line) {x : Except Fault β} (hx : ∀ f, x = .error f → line'.own f = f) :
    blame line' x = (blame line x).mapError line'.own := by
  cases x with
  | ok b => rfl
  | error f =>
    have hf := hx f rfl
    cases f with
    | misconfigured cause => rfl
    | _ => exact congrArg Except.error hf.symm

omit h in
-- A declaration may fail for its settings, which are no part of the line.
theorem own_of_declaredOutput {config : Config α} {name : String} {f : Fault}
    (hf : declaredOutput config name = .error f) : line'.own f = f := by
  rcases bind_eq_error.mp hf with hdefault | ⟨_, -, hf⟩
  · obtain ⟨cause, -, rfl⟩ := mapError_eq_error.mp hdefault
    rfl
  · rcases bind_eq_error.mp hf with hcount | ⟨_, -, hf⟩
    · unfold resolution? at hcount
      split at hcount
      · cases hcount
        rfl
      · split_ifs at hcount
        cases hcount
        rfl
    · rcases bind_eq_error.mp hf with hchosen | ⟨_, -, hf⟩
      · obtain ⟨cause, -, rfl⟩ := mapError_eq_error.mp hchosen
        rfl
      · cases hf

theorem readDeclaration_own (block : Block) : readDeclaration line' block p =
    (readDeclaration line block p).mapError line'.own := by
  unfold readDeclaration
  rw [keyword_congr h]
  split_ifs
  · rfl
  · refine judge_own h _ fun name _ => ?_
    rw [mapError_bind, blame_own line]
    · rfl
    · intro f hf
      split at hf
      · obtain ⟨cause, rfl⟩ := exists_of_addInput_eq_error hf
        rfl
      · rcases bind_eq_error.mp hf with hf | ⟨o, -, hf⟩
        · exact own_of_declaredOutput hf
        · obtain ⟨cause, rfl⟩ := exists_of_addOutput_eq_error hf
          rfl

theorem readFuzzify_own (name : String) :
    readFuzzify line' name p = (readFuzzify line name p).mapError line'.own := by
  unfold readFuzzify
  rw [keyword_congr h]
  dsimp only
  split_ifs
  · rfl
  · exact judge_own h _ fun _ _ => rfl
  · rfl

omit h in
theorem closeDefuzzify_own (hdrawn : p.controller.Drawn) (name : String) :
    closeDefuzzify line' name p = (closeDefuzzify line name p).mapError line'.own := by
  have hblamed : line'.Blamed (closeDefuzzify line' name p) := blamed_closeDefuzzify hdrawn name
  unfold closeDefuzzify at hblamed ⊢
  dsimp only at hblamed ⊢
  split_ifs at hblamed ⊢
  · rfl
  · exact hblamed.mapError_own.symm

theorem readDefuzzify_own (hdrawn : p.controller.Drawn) (name : String) :
    readDefuzzify line' name p = (readDefuzzify line name p).mapError line'.own := by
  unfold readDefuzzify
  rw [keyword_congr h]
  dsimp only
  split_ifs
  · exact closeDefuzzify_own hdrawn name
  · exact judge_own h _ fun _ _ => rfl
  · exact judge_own h _ fun _ _ => rfl
  · exact judge_own h _ fun _ _ => rfl
  · rfl

theorem readRuleLine_own : readRuleLine line' p = (readRuleLine line p).mapError line'.own := by
  unfold readRuleLine
  rw [keyword_congr h]
  dsimp only
  split_ifs
  · rfl
  · exact judge_own h _ fun _ _ => rfl
  · exact judge_own h _ fun _ _ => rfl
  · exact judge_own h _ fun _ _ => rfl
  · exact judge_own h _ fun _ _ => rfl
  · refine judge_own h _ fun r hr => ?_
    -- a rule that is read can be added
    obtain ⟨statement, -, hr⟩ := bind_eq_ok.mp hr
    obtain ⟨notices, hadded⟩ := addRule_of_valid (readRule_valid hr)
    rw [hadded]
    rfl
  · rfl

/-- A line that says the same does the same, and its faults are its own. -/
theorem readLine_own (hdrawn : p.controller.Drawn) :
    readLine line' p = (readLine line p).mapError line'.own := by
  unfold readLine
  rw [h]
  split_ifs
  · rfl
  · split
    · exact readOutside_own h
    · exact readDeclaration_own h _
    · exact readDeclaration_own h _
    · exact readFuzzify_own h _
    · exact readDefuzzify_own h hdrawn _
    · exact readRuleLine_own h

end Reading

/-! ## Lines in the places of others -/

/-- What related lines make of their problems; what is no problem of a line stays what it is. -/
inductive Moved (R : Line → Line → Prop) : Fault → Fault → Prop where
  | problem {line line' : Line} (problem : Problem) :
    R line line' → Moved R (line.fault problem) (line'.fault problem)
  | other {f : Fault} :
    (∀ number text problem, f ≠ .unreadable number text problem) → Moved R f f

variable {R : Line → Line → Prop}

theorem matches_readLine (hR : R line line') (h : line'.content = line.content)
    (hdrawn : p.controller.Drawn) : Matches (Moved R) (readLine line p) (readLine line' p) := by
  have hself : readLine line p = (readLine line p).mapError line.own := readLine_own rfl hdrawn
  have hother := readLine_own h hdrawn
  cases hread : readLine line p with
  | ok result =>
    rw [hread] at hother
    rw [hother]
    exact .ok result
  | error f =>
    rw [hread] at hself hother
    rw [hother]
    have hf : f = line.own f := Except.error.inj hself
    refine .error ?_
    cases f with
    | unreadable number text problem =>
      rw [hf]
      exact .problem problem hR
    | _ => exact .other (by simp)

/-- The lines that say something. -/
def spoken (lines : List Line) : List Line := lines.filter (!·.content.isEmpty)

-- The other lines do nothing.
theorem forEach_spoken (lines : List Line) :
    Action.forEach lines (fun line => Action.changeNoting (readLine (α := α) line)) =
      Action.forEach (spoken lines) fun line => Action.changeNoting (readLine line) := by
  induction lines with
  | nil => rfl
  | cons line lines ih =>
    unfold spoken at ih ⊢
    rw [Action.forEach, ih]
    by_cases hempty : line.content.isEmpty = true
    · rw [List.filter_cons_of_neg (by simp [hempty])]
      funext p
      have hread : Action.changeNoting (readLine line) p = ⟨p, [], .ok ()⟩ := by
        unfold Action.changeNoting readLine
        rw [if_pos hempty]
        rfl
      rw [Action.andThen_of_ok hread, List.nil_append]
    · rw [List.filter_cons_of_pos (by simp [hempty]), Action.forEach]

/-- Lines that say the same one by one do the same, one by one, up to the first that is faulty. -/
theorem matches_forEach {lines lines' : List Line} (h : List.Forall₂ R lines lines')
    (hR : ∀ line line', R line line' → line'.content = line.content)
    (hdrawn : p.controller.Drawn) :
    (Action.forEach lines (fun line => Action.changeNoting (readLine line)) p).Matches (Moved R)
      (Action.forEach lines' (fun line => Action.changeNoting (readLine line)) p) := by
  induction h generalizing p with
  | nil => exact ⟨rfl, rfl, .ok ()⟩
  | cons hline _ ih =>
    have hread := matches_readLine hline (hR _ _ hline) hdrawn
    refine Outcome.Matches.andThen (.changeNoting hread) fun _ q hanswer hstate => ih ?_
    obtain ⟨notices, hstep⟩ := Action.leads_changeNoting.mp (Action.leads_of_answer hanswer)
    rw [hstate] at hstep
    exact (readLine_step hstep).drawn hdrawn

theorem lastSpoken_related {lines lines' : List Line}
    (h : List.Forall₂ R (spoken lines) (spoken lines')) (hspoken : spoken lines ≠ []) :
    R (lastSpoken lines) (lastSpoken lines') := by
  have hreverse := List.forall₂_reverse_iff.mpr h
  obtain ⟨last, earlier, hlast⟩ :=
    List.exists_cons_of_ne_nil (mt List.reverse_eq_nil_iff.mp hspoken)
  rw [hlast] at hreverse
  obtain ⟨last', earlier', hrelated, -, hlast'⟩ := List.forall₂_cons_left_iff.mp hreverse
  unfold spoken at hlast hlast'
  unfold lastSpoken
  rw [List.getLast?_eq_head?_reverse, List.getLast?_eq_head?_reverse, hlast, hlast']
  exact hrelated

/-- The same for whole texts, of which none begins inside a block. -/
theorem matches_readLines {lines lines' : List Line}
    (h : List.Forall₂ R (spoken lines) (spoken lines'))
    (hR : ∀ line line', R line line' → line'.content = line.content)
    (hdrawn : p.controller.Drawn) (hclosed : p.block = none) :
    (readLines lines p).Matches (Moved R) (readLines lines' p) := by
  have heach := matches_forEach h hR hdrawn
  unfold readLines
  rw [forEach_spoken lines, forEach_spoken lines']
  refine heach.andThen fun _ q hanswer hstate => ⟨rfl, rfl, ?_⟩
  show Matches _ (checkEnd lines q) (checkEnd lines' q)
  unfold checkEnd
  split
  · exact .ok ()
  · rename_i opened hopen
    refine .error (.problem _ (lastSpoken_related h fun hnil => ?_))
    -- no block would be open if no line had said anything
    rw [hnil] at hstate
    obtain rfl : p = q := hstate
    cases hclosed.symm.trans hopen

/-! ## Numbers of lines -/

/-- The lines with the numbers that follow a number. -/
def numbered (number : Nat) (raws : List (List Char)) : List Line :=
  (raws.zipIdx number).map fun (raw, i) => Line.ofRaw (i + 1) raw

theorem numbered_append (number : Nat) (raws more : List (List Char)) :
    numbered number (raws ++ more) =
      numbered number raws ++ numbered (number + raws.length) more := by
  unfold numbered
  rw [List.zipIdx_append, List.map_append]

theorem spoken_append (lines more : List Line) : spoken (lines ++ more) =
    spoken lines ++ spoken more := List.filter_append ..

theorem forall₂_spoken_singleton (hR : R line line') (h : line'.content = line.content) :
    List.Forall₂ R (spoken [line]) (spoken [line']) := by
  unfold spoken
  rw [List.filter_singleton, List.filter_singleton, h]
  cases line.content.isEmpty with
  | true => exact .nil
  | false => exact .cons hR .nil

theorem spoken_of_unspoken {raws : List (List Char)} (h : ∀ raw ∈ raws, Unspoken raw)
    (number : Nat) : spoken (numbered number raws) = [] := by
  refine List.filter_eq_nil_iff.mpr fun line hline => ?_
  obtain ⟨⟨raw, i⟩, hmem, rfl⟩ := List.mem_map.mp hline
  have hcontent : (Line.ofRaw (i + 1) raw).content = [] :=
    (h raw (List.fst_mem_of_mem_zipIdx hmem)).content_eq_nil
  simp [hcontent]

/-- A line with the lines that are put in front of it and with the characters that are put around
it. -/
structure Relaid where
  inserted : List (List Char)
  front : List Char
  raw : List Char
  back : List Char

namespace Relaid

/-- What the line becomes. -/
def whole (r : Relaid) : List Char := r.front ++ r.raw ++ r.back

/-- The lines that the line becomes. -/
def lines (r : Relaid) : List (List Char) := r.inserted ++ [r.whole]

/-- Only what says nothing is put in. -/
structure Admissible (r : Relaid) : Prop where
  inserted : ∀ raw ∈ r.inserted, Unspoken raw
  front : Margin r.front
  back : Trailer r.back

theorem Admissible.content_whole {r : Relaid} (h : r.Admissible) :
    content r.whole = content r.raw := by
  unfold whole
  rw [content_append_right _ h.back, content_append_left h.front]

/-- A line and what it becomes, each with the number of its place. -/
def Becomes (rows : List Relaid) (number number' : Nat) (line line' : Line) : Prop :=
  ∃ k r, rows[k]? = some r ∧ line = Line.ofRaw (number + k + 1) r.raw ∧
    line' = Line.ofRaw (number' + ((rows.take (k + 1)).flatMap Relaid.lines).length) r.whole

theorem Becomes.content_eq {rows : List Relaid} (hrows : ∀ r ∈ rows, r.Admissible)
    {number number' : Nat} {line line' : Line} (h : Becomes rows number number' line line') :
    line'.content = line.content := by
  obtain ⟨k, r, hr, rfl, rfl⟩ := h
  exact (hrows r (List.mem_of_getElem? hr)).content_whole

-- The rows behind the first one.
theorem Becomes.cons {r : Relaid} {rows : List Relaid} {number number' : Nat} {line line' : Line}
    (h : Becomes rows (number + 1) (number' + r.lines.length) line line') :
    Becomes (r :: rows) number number' line line' := by
  obtain ⟨k, s, hs, rfl, rfl⟩ := h
  refine ⟨k + 1, s, hs, ?_, ?_⟩
  · rw [show number + 1 + k + 1 = number + (k + 1) + 1 by omega]
  · rw [List.take_succ_cons, List.flatMap_cons, List.length_append, Nat.add_assoc]

-- The lines that say something are the same ones, one by one.
theorem forall₂_spoken {rows : List Relaid} (hrows : ∀ r ∈ rows, r.Admissible)
    (number number' : Nat) : List.Forall₂ (Becomes rows number number')
      (spoken (numbered number (rows.map Relaid.raw)))
      (spoken (numbered number' (rows.flatMap Relaid.lines))) := by
  induction rows generalizing number number' with
  | nil => exact .nil
  | cons r rows ih =>
    obtain ⟨hr, hrows⟩ := List.forall_mem_cons.mp hrows
    have hlater := (ih hrows (number + 1) (number' + r.lines.length)).imp fun _ _ => Becomes.cons
    have hfirst : Becomes (r :: rows) number number' (Line.ofRaw (number + 1) r.raw)
        (Line.ofRaw (number' + r.inserted.length + 1) r.whole) :=
      ⟨0, r, rfl, rfl, by simp [lines, Nat.add_assoc]⟩
    have hlines : spoken (numbered number' r.lines) =
        spoken [Line.ofRaw (number' + r.inserted.length + 1) r.whole] := by
      unfold lines
      rw [numbered_append, spoken_append, spoken_of_unspoken hr.inserted]
      rfl
    have hraw : spoken (numbered number (r.raw :: rows.map Relaid.raw)) =
        spoken [Line.ofRaw (number + 1) r.raw] ++
          spoken (numbered (number + 1) (rows.map Relaid.raw)) := spoken_append [_] _
    rw [List.map_cons, List.flatMap_cons, numbered_append, spoken_append, hlines, hraw]
    exact List.rel_append (forall₂_spoken_singleton hfirst hr.content_whole) hlater

end Relaid

end Fcl

namespace Controller

open Fcl (Relaid)

variable {α : Type} [Scalar α]

theorem readFcl_of_error {base : Controller α} {text : List Char} {f : Fault}
    (h : (Fcl.readFor base text).answer = .error f) :
    base.readFcl text = ⟨base, (Fcl.readFor base text).notices, .error f⟩ := by
  unfold Fcl.readFor at h ⊢
  unfold readFcl
  dsimp only
  rw [h]

theorem readFcl_congr {base : Controller α} {text text' : List Char}
    (h : Fcl.readFor base text = Fcl.readFor base text') :
    base.readFcl text = base.readFcl text' := by
  unfold Fcl.readFor at h
  unfold readFcl
  rw [h]

theorem matches_readFcl {base : Controller α} {R : Fcl.Line → Fcl.Line → Prop}
    {text text' : List Char}
    (h : (Fcl.readFor base text).Matches (Fcl.Moved R) (Fcl.readFor base text')) :
    (base.readFcl text).Matches (Fcl.Moved R) (base.readFcl text') := by
  cases hread : (Fcl.readFor base text).answer with
  | error f =>
    obtain ⟨f', hread', hfault⟩ := h.exists_of_error hread
    rw [readFcl_of_error hread, readFcl_of_error hread', h.notices]
    exact ⟨rfl, rfl, .error hfault⟩
  | ok _ =>
    -- what is joined is the same, and no line is at fault any more
    rw [← readFcl_congr (h.eq_of_ok hread)]
    refine ⟨rfl, rfl, ?_⟩
    rcases Fcl.answer_readFcl base text with ⟨f, hfails, -⟩ | ⟨-, -, hjoined⟩ |
      ⟨-, name, -, -, htaken⟩
    · cases hread.symm.trans hfails
    · rw [hjoined]
      exact .ok ()
    · rw [htaken]
      exact .error (.other (by simp))

/-- A text may be laid out anew, with lines put in that say nothing, with blanks in front of its
lines, and with blanks and comments behind them.  What is read stays the same; or the same problem
is found in the line that the faulty one has become, whose number counts the lines that have been
put in up to there; or the same fault is found that is no problem of a line. -/
theorem readFcl_relaid (base : Controller α) {text text' : List Char} {rows : List Relaid}
    {last : List (List Char)} (htext : Text.lines text = rows.map Relaid.raw)
    (htext' : Text.lines text' = rows.flatMap Relaid.lines ++ last)
    (hrows : ∀ r ∈ rows, r.Admissible) (hlast : ∀ raw ∈ last, Fcl.Unspoken raw) :
    (base.readFcl text).state = (base.readFcl text').state ∧
    (base.readFcl text).notices = (base.readFcl text').notices ∧
    ((base.readFcl text).answer = .ok () ∧ (base.readFcl text').answer = .ok () ∨
      (∃ k r problem, rows[k]? = some r ∧
        (base.readFcl text).answer =
          .error (.unreadable (k + 1 : Nat) (String.ofList r.raw) problem) ∧
        (base.readFcl text').answer =
          .error (.unreadable ((rows.take (k + 1)).flatMap Relaid.lines).length
            (String.ofList r.whole) problem)) ∨
      ∃ f, (∀ number line problem, f ≠ .unreadable number line problem) ∧
        (base.readFcl text).answer = .error f ∧ (base.readFcl text').answer = .error f) := by
  have hspoken : List.Forall₂ (Relaid.Becomes rows 0 0) (Fcl.spoken (Fcl.linesOf text))
      (Fcl.spoken (Fcl.linesOf text')) := by
    have hlines (text : List Char) : Fcl.linesOf text = Fcl.numbered 0 (Text.lines text) := rfl
    rw [hlines, hlines, htext, htext', Fcl.numbered_append, Fcl.spoken_append,
      Fcl.spoken_of_unspoken hlast, List.append_nil]
    exact Relaid.forall₂_spoken hrows 0 0
  have hread : (Fcl.readFor base text).Matches (Fcl.Moved (Relaid.Becomes rows 0 0))
      (Fcl.readFor base text') :=
    Fcl.matches_readLines hspoken (fun _ _ => Relaid.Becomes.content_eq hrows)
      (Fcl.Progress.kept_start base.config base.operators).drawn rfl
  obtain ⟨hstate, hnotices, hanswer⟩ := matches_readFcl hread
  refine ⟨hstate, hnotices, ?_⟩
  generalize (base.readFcl text).answer = answer at hanswer
  generalize (base.readFcl text').answer = answer' at hanswer
  cases hanswer with
  | ok _ => exact .inl ⟨rfl, rfl⟩
  | error hfault =>
    cases hfault with
    | problem problem hline =>
      obtain ⟨k, r, hr, rfl, rfl⟩ := hline
      rw [Nat.zero_add, Nat.zero_add]
      exact .inr (.inl ⟨k, r, problem, hr, rfl, rfl⟩)
    | other hother => exact .inr (.inr ⟨_, hother, rfl, rfl⟩)

/-- A declaration without its semicolon, between comments. -/
def commentedRows : List Relaid :=
  [⟨['/' :: '/' :: " a (* b".toList], "  ".toList, "VAR_INPUT".toList,
      ' ' :: '/' :: '/' :: " c (* d".toList⟩,
    ⟨[[], '(' :: '*' :: (" e // f ".toList ++ ['*', ')'])], "\t".toList, "x:R".toList, " ".toList⟩]

theorem readFcl_relaid_declaration :
    (∀ r ∈ commentedRows, r.Admissible) ∧
    ((ofConfig (.standard : Config Rat) "").readFcl "VAR_INPUT\nx:R".toList).answer =
      .error (.unreadable 2 "x:R" .missingSemicolon) ∧
    ((ofConfig (.standard : Config Rat) "").readFcl
      "// a (* b\n  VAR_INPUT // c (* d\n\n(* e // f *)\n\tx:R \n\t".toList).answer =
      .error (.unreadable 5 "\tx:R " .missingSemicolon) := by
  have hanswer : ((ofConfig (.standard : Config Rat) "").readFcl "VAR_INPUT\nx:R".toList).answer =
      .error (.unreadable 2 "x:R" .missingSemicolon) := by cbv
  have hrows : ∀ r ∈ commentedRows, r.Admissible := by
    refine List.forall_mem_cons.mpr ⟨⟨List.forall_mem_singleton.mpr ?_, by decide, ?_⟩,
      List.forall_mem_singleton.mpr ⟨List.forall_mem_cons.mpr ⟨?_,
        List.forall_mem_singleton.mpr ?_⟩, by decide, ?_⟩⟩
    · exact @Fcl.Unspoken.slashes [] _ (by decide)
    · exact @Fcl.Trailer.comment [' '] _ (by decide) (by decide) (by decide)
    · exact .blank (by decide)
    · exact @Fcl.Unspoken.bracketed [] " e // f ".toList [] (by decide) (by decide) (by decide)
    · exact .margin (by decide)
  have htext : Text.lines "VAR_INPUT\nx:R".toList = commentedRows.map Relaid.raw := by decide
  have htext' : Text.lines
      "// a (* b\n  VAR_INPUT // c (* d\n\n(* e // f *)\n\tx:R \n\t".toList =
        commentedRows.flatMap Relaid.lines ++ ["\t".toList] := by decide
  obtain ⟨-, -, h⟩ := readFcl_relaid (ofConfig (.standard : Config Rat) "") htext htext' hrows
    (List.forall_mem_singleton.mpr (.blank (by decide)))
  rw [hanswer] at h
  rcases h with ⟨h, -⟩ | ⟨k, r, problem, hr, h, h'⟩ | ⟨f, hf, h, -⟩
  · cases h
  · obtain ⟨hk, -, rfl⟩ := Fault.unreadable.inj (Except.error.inj h)
    obtain rfl : k = 1 := by omega
    obtain rfl := Option.some.inj hr
    exact ⟨hrows, hanswer, h'⟩
  · exact absurd (Except.error.inj h).symm (hf _ _ _)

end Controller

end FuzzyInference
