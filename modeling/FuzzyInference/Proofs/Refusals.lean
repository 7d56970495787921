import FuzzyInference.Proofs.Leads
import FuzzyInference.Proofs.RoundTrip

/-!
# Written texts that are refused

A written text is read, or it holds a term without points, an output without terms or a comment.
-/

namespace FuzzyInference

open List (Forall₂)

variable {α : Type} [Scalar α]

/-- A term whose name and numbers can be read. -/
structure Term.Spelled (t : Term α) : Prop where
  name : Fcl.Admitted (Fcl.spacedWords t.name.toList)
  points : ∀ p ∈ t.points, p.Legible

/-- A variable whose names and numbers can be read. -/
structure Variable.Spelled (v : Variable α) : Prop where
  name : Fcl.Admitted (Fcl.spacedWords v.name.toList)
  terms : ∀ t ∈ v.terms, t.Spelled

theorem Variable.Spelled.writable {v : Variable α} (h : v.Spelled)
    (hpoints : ∀ t ∈ v.terms, t.points ≠ []) : v.Writable :=
  ⟨h.name, fun t ht => ⟨(h.terms t ht).name, hpoints t ht, (h.terms t ht).points⟩⟩

theorem Variable.Named.spelled {v : Variable α} (h : v.Named)
    (hpoints : ∀ t ∈ v.terms, ∀ p ∈ t.points, p.Legible) : v.Spelled :=
  ⟨h.name, fun t ht => ⟨h.terms t ht, hpoints t ht⟩⟩

namespace Fcl

open Text

/-! ## Lines that are refused -/

/-- The lines, wherever they stand in a text, are not read to their end at `p`. -/
def Refuses (ls : List String) (p : Progress α) : Prop :=
  ∀ n q, ¬(Action.forEach
    (((ls.map String.toList).zipIdx n).map fun (raw, i) => Line.ofRaw (i + 1) raw)
    fun line => Action.changeNoting (readLine line)).Leads p q ()

/-- The line, wherever it stands in a text, is not read at `p`. -/
def RefusesLine (raw : List Char) (p : Progress α) : Prop :=
  ∀ n q, readLine (Line.ofRaw n raw) p ≠ .ok q

theorem Refuses.cons {l : String} {p : Progress α} (h : RefusesLine l.toList p)
    (ls : List String) : Refuses (l :: ls) p := by
  intro n q hleads
  rw [List.map_cons, List.zipIdx_cons, List.map_cons] at hleads
  obtain ⟨r, hfirst, -⟩ := Action.leads_forEach_cons.mp hleads
  obtain ⟨notices, hread⟩ := Action.leads_changeNoting.mp hfirst
  exact h (n + 1) _ hread

theorem Refuses.append {ls : List String} {p : Progress α} (h : Refuses ls p)
    (ms : List String) : Refuses (ls ++ ms) p := by
  intro n q hleads
  rw [List.map_append, List.zipIdx_append, List.map_append] at hleads
  obtain ⟨r, hfirst, -⟩ := Action.leads_forEach_append.mp hleads
  exact h n r hfirst

theorem Reads.refuses {ls ms : List String} {p q : Progress α} (h : Reads ls p q)
    (hms : Refuses ms q) : Refuses (ls ++ ms) p := by
  intro n r hleads
  rw [List.map_append, List.zipIdx_append, List.map_append] at hleads
  obtain ⟨q', hfirst, hrest⟩ := Action.leads_forEach_append.mp hleads
  have hsame : q' = q := hfirst.state_eq.symm.trans (Action.Leads.state_eq (h n))
  rw [hsame] at hrest
  exact hms _ r hrest

-- Lines that are not read to their end make up a text that is not read.
theorem readFor_join_ne_ok (base : Controller α) {ls : List String} (hlines : ∀ l ∈ ls, OneLine l)
    (hrefuses : Refuses ls (Progress.start base.config base.operators)) :
    (readFor base (String.join (ls.map (· ++ "\n"))).toList).answer ≠ .ok () := by
  intro hanswer
  have hread := Action.leads_of_answer hanswer
  unfold readLines linesOf at hread
  rw [lines_join hlines] at hread
  obtain ⟨q, _, hfirst, -⟩ := Action.leads_bind.mp hread
  exact hrefuses 0 q hfirst

/-! ## Terms without points -/

-- A term without points is no statement of a term.
theorem refuses_term {t : Term α} (hname : Admitted (spacedWords t.name.toList))
    (hpoints : t.points = []) (n : Nat) :
    ∃ statement, (Line.ofRaw n (termLine t).toList).content.isEmpty = false ∧
      (Line.ofRaw n (termLine t).toList).keyword = "TERM" ∧
      (Line.ofRaw n (termLine t).toList).statement = .ok statement ∧
      ∀ s : Term α, readTerm statement ≠ .ok s := by
  have hword : IsKeyword "TERM".toList := by decide
  have hassign : Quiet ([':', '='] ++ [' ']) := quiet_of_not_mem (by decide) (by decide)
  have hquiet := hname.quiet
  rw [spaced_spacedWords] at hquiet
  have htext : (termLine t).toList = '\t' ::
      ("TERM".toList ++ ' ' :: (t.name.toList ++ ' ' :: ([':', '='] ++ [' '])) ++ [';']) := by
    unfold termLine
    rw [hpoints]
    simp [String.toList_append]
  have hline : Quiet (termLine t).toList := by
    rw [htext]
    exact quiet_tab (quiet_semicolon (quiet_append_space.mpr
      ⟨hword.quiet, quiet_append_space.mpr ⟨hquiet, hassign⟩⟩))
  have hraw : beforeSlashes (dropComments (termLine t).toList) = '\t' ::
      ("TERM".toList ++ ' ' :: (t.name.toList ++ ' ' :: ([':', '='] ++ [' '])) ++ [';']) := by
    rw [dropComments_of_quiet hline, beforeSlashes_of_unslashed hline.unslashed, htext]
  obtain ⟨hcontent, hkeyword, hstatement⟩ := ofRaw_stripped hword hraw n
  -- behind the marks only a blank has been written, which is no part of the statement
  have hpieces : ∀ p ∈ "TERM".toList :: (spacedWords t.name.toList ++ [[':', '=']]), IsPiece p :=
    List.forall_mem_cons.mpr ⟨hword.isPiece, List.forall_mem_append.mpr
      ⟨hname.pieces, List.forall_mem_singleton.mpr (by decide)⟩⟩
  have htrim := trim_concat_space hpieces
  rw [spaced_cons _ (by simp), spaced_append hname.nonempty (by simp), spaced_spacedWords,
    spaced_singleton] at htrim
  have hshape : "TERM".toList ++ ' ' :: (t.name.toList ++ ' ' :: ([':', '='] ++ [' '])) =
      "TERM".toList ++ ' ' :: (t.name.toList ++ ' ' :: [':', '=']) ++ [' '] := by simp
  rw [hshape, htrim] at hstatement
  refine ⟨_, hcontent, hkeyword, hstatement, fun s hread => ?_⟩
  have hparts := termParts?_append hname []
  rw [List.append_nil, List.append_assoc, List.singleton_append] at hparts
  have hnone : readPoints (trimLeft []) = (.ok [] : Except Problem (List (Point α))) := by
    simp [readPoints, splitBrackets, trimLeft, trim, trimRight]
    rfl
  unfold readTerm at hread
  rw [hparts] at hread
  dsimp only at hread
  rw [hnone] at hread
  cases hread

theorem judge_ne_ok {line : Line} {statement : List Char} {β : Type}
    {read : List Char → Except Problem β} (hstatement : line.statement = .ok statement)
    (hread : ∀ b, read statement ≠ .ok b) (b : β) :
    line.judge (line.statement >>= read) ≠ .ok b := by
  unfold Line.judge
  rw [ne_eq, mapError_eq_ok, hstatement]
  exact hread b

theorem refusesLine_inputTerm {t : Term α} (hname : Admitted (spacedWords t.name.toList))
    (hpoints : t.points = []) (c : Controller α) (name : String) (described : List String) :
    RefusesLine (termLine t).toList ⟨c, some ⟨.fuzzify, name⟩, described⟩ := by
  intro n q hread
  obtain ⟨statement, hcontent, hkeyword, hstatement, hterm⟩ := refuses_term hname hpoints n
  rw [readLine_fuzzify hcontent] at hread
  unfold readFuzzify at hread
  rw [hkeyword] at hread
  obtain ⟨term, hjudge, -⟩ := bind_eq_ok.mp hread
  exact judge_ne_ok hstatement hterm term hjudge

theorem refusesLine_outputTerm {t : Term α} (hname : Admitted (spacedWords t.name.toList))
    (hpoints : t.points = []) (c : Controller α) (name : String) (described : List String) :
    RefusesLine (termLine t).toList ⟨c, some ⟨.defuzzify, name⟩, described⟩ := by
  intro n q hread
  obtain ⟨statement, hcontent, hkeyword, hstatement, hterm⟩ := refuses_term hname hpoints n
  rw [readLine_defuzzify hcontent] at hread
  unfold readDefuzzify at hread
  rw [hkeyword] at hread
  obtain ⟨term, hjudge, -⟩ := bind_eq_ok.mp hread
  exact judge_ne_ok hstatement hterm term hjudge

-- The terms of a block, one of which has no points.
theorem refuses_terms (state : List (Term α) → Progress α) {ts : List (Term α)}
    (hts : ∀ t ∈ ts, t.Spelled)
    (hreads : ∀ t : Term α, t.Writable → ∀ before,
      ReadsLine (termLine t).toList (state before) (state (before ++ [t.reread])))
    (hrefuses : ∀ t : Term α, Admitted (spacedWords t.name.toList) → t.points = [] → ∀ before,
      RefusesLine (termLine t).toList (state before))
    (hbad : ∃ t ∈ ts, t.points = []) (before : List (Term α)) :
    Refuses (ts.map termLine) (state before) := by
  -- on the terms before the first without points
  induction ts generalizing before with
  | nil => simp at hbad
  | cons t ts ih =>
    obtain ⟨ht, hothers⟩ := List.forall_mem_cons.mp hts
    by_cases hpoints : t.points = []
    · exact .cons (hrefuses t ht.name hpoints before) (ts.map termLine)
    · have hfirst := hreads t ⟨ht.name, hpoints, ht.points⟩ before
      have hrest := (List.or_exists_of_exists_mem_cons hbad).resolve_left hpoints
      exact (Reads.single hfirst).refuses (ih hothers hrest (before ++ [t.reread]))

-- The end of the block of an output without terms.
theorem refusesLine_endDefuzzify (c : Controller α) {before after : List (OutputVariable α)}
    {o : OutputVariable α} {described : List String} (hterms : o.terms = [])
    (hbefore : o.name ∉ before.map (·.name)) :
    RefusesLine "END_DEFUZZIFY".toList
      ⟨{ c with outputs := before ++ o :: after }, some ⟨.defuzzify, o.name⟩, described⟩ := by
  intro n q hread
  have hword : IsKeyword "END_DEFUZZIFY".toList := by decide
  obtain ⟨hcontent, hkeyword, -⟩ := ofRaw_keyword hword n
  have hfound := Controller.output?_append (c := { c with outputs := before ++ o :: after }) rfl
    hbefore
  rw [readLine_defuzzify hcontent] at hread
  unfold readDefuzzify at hread
  rw [hkeyword] at hread
  replace hread : closeDefuzzify _ _ _ = _ := hread
  unfold closeDefuzzify at hread
  dsimp only at hread
  rw [if_pos (by simp [hfound, hterms])] at hread
  cases hread

variable [Scalar.PlainText α]

/-! ## Inputs -/

section Inputs

variable {described : List String}

-- The block of an input with a term without points.
theorem refuses_fuzzify (c : Controller α) {before : List (Variable α)}
    (after : List (Variable α)) {v : Variable α} (h : v.Spelled)
    (hbad : ∃ t ∈ v.terms, t.points = []) (hbefore : v.name ∉ before.map (·.name))
    (hnew : v.name ∉ described) : Refuses (fuzzifyLines v)
      ⟨{ c with inputs := before ++ ⟨v.name, []⟩ :: after }, none, described⟩ := by
  have hopen := readsLine_fuzzify (c := { c with inputs := before ++ ⟨v.name, []⟩ :: after })
    h.name hnew (by simp)
  have hterms := refuses_terms (fun terms =>
    ⟨{ c with inputs := before ++ ⟨v.name, terms⟩ :: after }, some ⟨.fuzzify, v.name⟩,
      v.name :: described⟩) h.terms
    (fun t ht terms => readsLine_inputTerm (v := ⟨v.name, terms⟩) ht hbefore)
    (fun t ht hpoints terms => refusesLine_inputTerm ht hpoints _ _ _) hbad []
  exact (Reads.single hopen).refuses (hterms.append ["END_FUZZIFY"])

-- The blocks of the inputs, one of which has a term without points.
theorem refuses_inputs (c : Controller α) (before : List (Variable α)) {vs : List (Variable α)}
    (h : ∀ v ∈ vs, v.Spelled) (hdistinct : ((before ++ vs).map (·.name)).Nodup)
    (hnew : ∀ v ∈ vs, v.name ∉ described) (hbad : ∃ v ∈ vs, ∃ t ∈ v.terms, t.points = []) :
    Refuses (vs.flatMap fuzzifyLines)
      ⟨{ c with inputs := before ++ vs.map fun v => ⟨v.name, []⟩ }, none, described⟩ := by
  -- on the inputs before the first with such a term
  induction vs generalizing before described with
  | nil => simp at hbad
  | cons v vs ih =>
    obtain ⟨hv, hvs⟩ := List.forall_mem_cons.mp h
    obtain ⟨hvnew, hvsnew⟩ := List.forall_mem_cons.mp hnew
    have hnames := hdistinct
    rw [List.map_append, List.map_cons] at hdistinct
    obtain ⟨hhead, -⟩ := List.nodup_cons.mp (List.nodup_middle.mp hdistinct)
    rw [List.mem_append, not_or] at hhead
    rw [List.flatMap_cons, List.map_cons]
    by_cases hpoints : ∃ t ∈ v.terms, t.points = []
    · exact (refuses_fuzzify c _ hv hpoints hhead.1 hvnew).append _
    · have hwritable : v.Writable := hv.writable fun t ht hnone => hpoints ⟨t, ht, hnone⟩
      have hfirst := reads_fuzzify c (vs.map fun v => ⟨v.name, []⟩) hwritable hhead.1 hvnew
      have hdistinct' : ((before ++ [v.reread] ++ vs).map (·.name)).Nodup := by
        rw [List.append_assoc, List.map_append]
        rwa [List.map_append] at hnames
      have hothers := ih (before ++ [v.reread]) hvs hdistinct'
        (not_mem_described_cons hhead.2 hvsnew)
        ((List.or_exists_of_exists_mem_cons hbad).resolve_left hpoints)
      rw [List.append_assoc, List.singleton_append] at hothers
      exact hfirst.refuses hothers

end Inputs

/-! ## Outputs -/

section Outputs

variable {described : List String} {o made : OutputVariable α}

-- The block of an output without terms or with a term without points.
theorem refuses_defuzzify (c : Controller α) {before : List (OutputVariable α)}
    (after : List (OutputVariable α)) (h : o.toVariable.Spelled)
    (hdefault : Scalar.Legible o.defaultValue) (hname : made.name = o.name)
    (hmade : made.replaceTerms [] = made)
    (hbad : o.terms = [] ∨ ∃ t ∈ o.terms, t.points = [])
    (hbefore : o.name ∉ before.map (·.name)) (hnew : o.name ∉ described) :
    Refuses (defuzzifyLines o)
      ⟨{ c with outputs := before ++ made :: after }, none, described⟩ := by
  rw [← hname] at hbefore
  have hopen : ReadsLine ("DEFUZZIFY " ++ o.name).toList
      ⟨{ c with outputs := before ++ made :: after }, none, described⟩
      ⟨{ c with outputs := before ++ made.replaceTerms [] :: after },
        some ⟨.defuzzify, made.name⟩, o.name :: described⟩ := by
    rw [hmade, hname]
    exact readsLine_defuzzify h.name hnew (by simp [hname])
  unfold defuzzifyLines
  rcases hbad with hnone | hpoints
  · rw [hnone, List.map_nil]
    have hread := Reads.cons hopen (.cons (readsLine_method o.method hbefore)
      (.single (readsLine_default hdefault hbefore)))
    exact hread.refuses (.cons (refusesLine_endDefuzzify c
      (o := made.filled { o with terms := [] }) rfl hbefore) [])
  · have hterms := refuses_terms (fun terms =>
      ⟨{ c with outputs := before ++ made.replaceTerms terms :: after },
        some ⟨.defuzzify, made.name⟩, o.name :: described⟩) h.terms
      (fun t ht terms => readsLine_outputTerm (o := made.replaceTerms terms) ht hbefore)
      (fun t ht hpoints terms => refusesLine_outputTerm ht hpoints _ _ _) hpoints []
    exact ((Reads.single hopen).refuses hterms).append _

-- The blocks of the outputs, one of which has no terms or a term without points.
theorem refuses_outputs (c : Controller α) (before : List (OutputVariable α))
    {os mades : List (OutputVariable α)} (h : ∀ o ∈ os, o.toVariable.Spelled)
    (hdefaults : ∀ o ∈ os, Scalar.Legible o.defaultValue)
    (hmades : Forall₂ (fun o made => made.name = o.name ∧ made.replaceTerms [] = made) os mades)
    (hdistinct : (before.map (·.name) ++ os.map (·.name)).Nodup)
    (hnew : ∀ o ∈ os, o.name ∉ described)
    (hbad : ∃ o ∈ os, o.terms = [] ∨ ∃ t ∈ o.terms, t.points = []) :
    Refuses (os.flatMap defuzzifyLines)
      ⟨{ c with outputs := before ++ mades }, none, described⟩ := by
  -- on the outputs before the first that is refused
  induction hmades generalizing before described with
  | nil => simp at hbad
  | @cons o made os mades hmade _ ih =>
    obtain ⟨ho, hos⟩ := List.forall_mem_cons.mp h
    obtain ⟨hdefault, hdefaults⟩ := List.forall_mem_cons.mp hdefaults
    obtain ⟨honew, hosnew⟩ := List.forall_mem_cons.mp hnew
    rw [List.map_cons] at hdistinct
    obtain ⟨hhead, -⟩ := List.nodup_cons.mp (List.nodup_middle.mp hdistinct)
    rw [List.mem_append, not_or] at hhead
    rw [List.flatMap_cons]
    by_cases hterms : o.terms = [] ∨ ∃ t ∈ o.terms, t.points = []
    · exact (refuses_defuzzify c mades ho hdefault hmade.1 hmade.2 hterms hhead.1 honew).append _
    · obtain ⟨hne, hpoints⟩ := not_or.mp hterms
      have hwritable : o.Writable :=
        ⟨ho.writable fun t ht hnone => hpoints ⟨t, ht, hnone⟩, hne, hdefault⟩
      obtain ⟨o', ho', hfirst⟩ := reads_defuzzify c mades hwritable hmade.1 hmade.2 hhead.1 honew
      have hname : o'.name = o.name := congrArg (fun p => p.1.1) ho'
      have hnames : ((before ++ [o']).map (·.name) ++ os.map (·.name)).Nodup := by
        rwa [List.map_append, List.append_assoc, List.map_singleton, hname]
      have hothers := ih (before ++ [o']) hos hdefaults hnames
        (not_mem_described_cons hhead.2 hosnew)
        ((List.or_exists_of_exists_mem_cons hbad).resolve_left hterms)
      rw [List.append_assoc, List.singleton_append] at hothers
      exact hfirst.refuses hothers

end Outputs

/-! ## Rules -/

section Rules

variable {c d : Controller α} {described : List String}

theorem refusesLine_rule {r : Rule α} {line : String} {number : Nat}
    (hline : ruleLine c number r = .ok line) (hnames : c.Named)
    (hweight : Scalar.Legible r.conclusion.weight) (hcomment : ¬Uncommented line.toList) :
    RefusesLine line.toList ⟨d, some ⟨.rules, ""⟩, described⟩ := by
  intro n q hread
  obtain ⟨statement, hcontent, hkeyword, hstatement, hrefuses⟩ :=
    refuses_commented hline hnames.inputs hnames.outputs hweight hcomment n
  rw [readLine_rules hcontent] at hread
  unfold readRuleLine at hread
  rw [hkeyword] at hread
  obtain ⟨rule, hjudge, -⟩ := bind_eq_ok.mp hread
  exact judge_ne_ok hstatement (hrefuses d) rule hjudge

-- The lines of the rules, one of which holds a comment.
theorem refuses_rules {items : List (Rule α × Nat)} {lines : List String}
    (hlines : Forall₂ (fun (item : Rule α × Nat) line =>
      ruleLine c (item.2 + 1) item.1 = .ok line) items lines)
    (hnames : c.Named) (hweights : ∀ item ∈ items, Scalar.Legible item.1.conclusion.weight)
    (hcomment : ∃ l ∈ lines, ¬Uncommented l.toList) (hsame : c.SameTerms d) :
    Refuses lines ⟨d, some ⟨.rules, ""⟩, described⟩ := by
  -- on the lines before the first with a comment
  induction hlines generalizing d with
  | nil => simp at hcomment
  | @cons item line items lines hline _ ih =>
    obtain ⟨hweight, hweights⟩ := List.forall_mem_cons.mp hweights
    by_cases hclean : Uncommented line.toList
    · have hnext : c.SameTerms { d with rules := withRule d.rules (item.1.reread c) } :=
        ⟨hsame.inputs, hsame.outputs⟩
      have hrest := (List.or_exists_of_exists_mem_cons hcomment).resolve_left (not_not.mpr hclean)
      exact (Reads.single (readsLine_rule hline hnames hweight hclean hsame)).refuses
        (ih hweights hrest hnext)
    · exact .cons (refusesLine_rule hline hnames hweight hclean) lines

-- The block of the rules, in one of which a bracket begins a comment.
theorem refuses_ruleLines (described : List String) {lines : List String}
    (hlines : ruleLines c = .ok lines) (hnames : c.Named)
    (hweights : ∀ r ∈ c.rules, Scalar.Legible r.conclusion.weight)
    (hcomment : ¬c.Uncommented) (hsame : c.SameTerms d) : Refuses lines ⟨d, none, described⟩ := by
  obtain ⟨rules, hrules, h⟩ := bind_eq_ok.mp hlines
  obtain rfl := Except.ok.inj h
  have hweights' : ∀ item ∈ c.rules.zipIdx, Scalar.Legible item.1.conclusion.weight :=
    fun item hitem => hweights item.1 (List.fst_mem_of_mem_zipIdx hitem)
  have hcomment' : ∃ l ∈ rules, ¬Uncommented l.toList := by
    rw [← uncommented_ruleLines hrules hnames hweights] at hcomment
    simpa only [not_forall, exists_prop] using hcomment
  have hrefuses : Refuses rules ⟨{ d with operators := c.operators }, some ⟨.rules, ""⟩,
      described⟩ :=
    refuses_rules (mapM_eq_ok.mp hrules) hnames hweights' hcomment' ⟨hsame.inputs, hsame.outputs⟩
  exact (reads_settings.refuses hrefuses).append ["END_RULEBLOCK"]

end Rules

/-! ## The whole text -/

theorem refuses_controllerLines {c : Controller α} {lines : List String}
    (hlines : controllerLines c = .ok lines) (hconfig : c.config.Sound)
    (hdistinct : c.NamesDistinct) (hprinted : c.Printed)
    (hbad : ¬(c.Populated ∧ c.Uncommented)) (operators : Operators) :
    Refuses lines (Progress.start c.config operators) := by
  obtain ⟨hcheck, rules, hrules, rfl⟩ := controllerLines_eq_ok.mp hlines
  have hnames := Controller.named_of_check hcheck
  have hspelled : ∀ v ∈ c.inputs, v.Spelled := fun v hv =>
    (hnames.inputs v hv).spelled (hprinted.inputs v hv)
  -- the first of the inputs, the outputs and the rules that are refused
  by_cases hinputs : ∃ v ∈ c.inputs, ∃ t ∈ v.terms, t.points = []
  · obtain ⟨mades, -, hopening⟩ := reads_openingLines hnames hconfig hdistinct operators
    have hrefuses := refuses_inputs ⟨c.config, c.name, [], mades, [], operators⟩ [] hspelled
      (List.nodup_append.mp hdistinct).1 (fun _ _ => List.not_mem_nil) hinputs
    exact (((hopening.refuses hrefuses).append _).append _).append _
  have hpoints : ∀ v ∈ c.inputs, ∀ t ∈ v.terms, t.points ≠ [] :=
    fun v hv t ht hnone => hinputs ⟨v, hv, t, ht, hnone⟩
  by_cases houtputs : ∃ o ∈ c.outputs, o.terms = [] ∨ ∃ t ∈ o.terms, t.points = []
  · obtain ⟨mades, hmades, hopening⟩ := reads_inputLines hnames hconfig hdistinct
      (fun v hv => (hspelled v hv).writable (hpoints v hv)) operators
    have hother := hdistinct.not_mem_inputs
    have hrefuses := refuses_outputs
      ⟨c.config, c.name, c.inputs.map Variable.reread, [], [], operators⟩ []
      (fun o ho => (hnames.outputs o ho).spelled (hprinted.outputs o ho)) hprinted.defaults hmades
      (List.nodup_append.mp hdistinct).2.1
      (fun o ho => show o.name ∉ (c.inputs.map (·.name)).reverse ++ [] by simpa using hother o ho)
      houtputs
    exact ((hopening.refuses hrefuses).append _).append _
  have hpopulated : c.Populated := ⟨hpoints,
    fun o ho t ht hnone => houtputs ⟨o, ho, .inr ⟨t, ht, hnone⟩⟩,
    fun o ho hnone => houtputs ⟨o, ho, .inl hnone⟩⟩
  obtain ⟨outputs, described, hsame, hvariables⟩ :=
    reads_outputLines hnames hconfig hdistinct hpopulated hprinted operators
  have hrefuses := refuses_ruleLines described hrules hnames hprinted.weights
    (fun hcomments => hbad ⟨hpopulated, hcomments⟩) (sameTerms_of_outlines hsame operators)
  exact (hvariables.refuses hrefuses).append _

/-- A written text that is read has been written for a controller without a bracket that begins a
comment, each of whose terms has points and each of whose outputs has terms. -/
theorem written_of_readFcl {c : Controller α} {text : String} (htext : c.toFcl = .ok text)
    (hconfig : c.config.Sound) (hdistinct : c.NamesDistinct) (hprinted : c.Printed)
    (hanswer : ((Controller.ofConfig c.config "").readFcl text.toList).answer = .ok ()) :
    c.Populated ∧ c.Uncommented := by
  by_contra hbad
  obtain ⟨lines, hlines, rfl⟩ := map_eq_ok.mp htext
  have hrefuses := refuses_controllerLines hlines hconfig hdistinct hprinted hbad
    (Controller.ofConfig c.config "").operators
  have hread := readFor_join_ne_ok (Controller.ofConfig c.config "")
    (oneLine_controllerLines hlines hprinted.weights) hrefuses
  obtain ⟨notices, fault, hfault⟩ := readFcl_of_not_disjoint fun h => hread h.1
  rw [hfault] at hanswer
  cases hanswer

end Fcl

end FuzzyInference
