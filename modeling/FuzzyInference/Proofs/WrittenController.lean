import FuzzyInference.Proofs.Comments
import FuzzyInference.Proofs.Reachable
import FuzzyInference.Proofs.WrittenOutputs

/-!
# Controllers that are written

The text of a controller is read without a fault, as a controller that differs from the written one
in nothing but what is read again: numbers, points and the places of terms.
-/

namespace FuzzyInference

open List (Forall₂)

variable {α : Type}

/-- The controller `d` has the variables of `c`, with terms of the same names. -/
structure Controller.SameTerms (c d : Controller α) : Prop where
  inputs : Forall₂ Variable.SameTerms c.inputs d.inputs
  outputs : Forall₂ (fun o o' => o.toVariable.SameTerms o'.toVariable) c.outputs d.outputs

theorem Controller.SameTerms.refl (c : Controller α) : c.SameTerms c :=
  ⟨List.forall₂_same.mpr fun _ _ => ⟨rfl, rfl⟩, List.forall₂_same.mpr fun _ _ => ⟨rfl, rfl⟩⟩

theorem Controller.NamesDistinct.not_mem_inputs {c : Controller α} (h : c.NamesDistinct) :
    ∀ o ∈ c.outputs, o.name ∉ c.inputs.map (·.name) := fun o ho hmem =>
  (List.nodup_append.mp h).2.2 _ hmem _ (List.mem_map.mpr ⟨o, ho, rfl⟩) rfl

variable [Scalar α]

/-- Everything of a term but its name can be read. -/
def Term.Legible (t : Term α) : Prop := t.points ≠ [] ∧ ∀ p ∈ t.points, p.Legible

theorem Variable.Named.writable {v : Variable α} (h : v.Named) (hterms : ∀ t ∈ v.terms, t.Legible) :
    v.Writable :=
  ⟨h.name, fun t ht => ⟨h.terms t ht, (hterms t ht).1, (hterms t ht).2⟩⟩

/-- Every term of a controller has points, and every output has terms. -/
structure Controller.Populated (c : Controller α) : Prop where
  inputs : ∀ v ∈ c.inputs, ∀ t ∈ v.terms, t.points ≠ []
  outputs : ∀ o ∈ c.outputs, ∀ t ∈ o.terms, t.points ≠ []
  nonempty : ∀ o ∈ c.outputs, o.terms ≠ []

/-- Every number of a controller can be read. -/
structure Controller.Printed (c : Controller α) : Prop where
  inputs : ∀ v ∈ c.inputs, ∀ t ∈ v.terms, ∀ p ∈ t.points, p.Legible
  outputs : ∀ o ∈ c.outputs, ∀ t ∈ o.terms, ∀ p ∈ t.points, p.Legible
  defaults : ∀ o ∈ c.outputs, Scalar.Legible o.defaultValue
  weights : ∀ r ∈ c.rules, Scalar.Legible r.conclusion.weight

/-- No bracket that is written in a condition begins a comment. -/
def Controller.Uncommented (c : Controller α) : Prop :=
  ∀ r ∈ c.rules, ∀ text, Fcl.conditionText c r.condition = .ok text → Fcl.Uncommented text.toList

/-- Everything of a controller but its names can be read. -/
structure Controller.Legible (c : Controller α) : Prop where
  inputs : ∀ v ∈ c.inputs, ∀ t ∈ v.terms, t.Legible
  outputs : ∀ o ∈ c.outputs, ∀ t ∈ o.terms, t.Legible
  nonempty : ∀ o ∈ c.outputs, o.terms ≠ []
  defaults : ∀ o ∈ c.outputs, Scalar.Legible o.defaultValue
  weights : ∀ r ∈ c.rules, Scalar.Legible r.conclusion.weight
  /-- Behind an opening bracket, such a name would begin a comment. -/
  noStar : ∀ v ∈ c.inputs, v.name.toList.head? ≠ some '*'

theorem Controller.Populated.legible {c : Controller α} (h : c.Populated) (hprinted : c.Printed)
    (hstars : ∀ v ∈ c.inputs, v.name.toList.head? ≠ some '*') : c.Legible where
  inputs v hv t ht := ⟨h.inputs v hv t ht, hprinted.inputs v hv t ht⟩
  outputs o ho t ht := ⟨h.outputs o ho t ht, hprinted.outputs o ho t ht⟩
  nonempty := h.nonempty
  defaults := hprinted.defaults
  weights := hprinted.weights
  noStar := hstars

theorem Controller.Legible.populated {c : Controller α} (h : c.Legible) : c.Populated :=
  ⟨fun v hv t ht => (h.inputs v hv t ht).1, fun o ho t ht => (h.outputs o ho t ht).1, h.nonempty⟩

theorem Controller.Legible.printed {c : Controller α} (h : c.Legible) : c.Printed :=
  ⟨fun v hv t ht => (h.inputs v hv t ht).2, fun o ho t ht => (h.outputs o ho t ht).2, h.defaults,
    h.weights⟩

theorem Controller.Legible.uncommented {c : Controller α} (h : c.Legible) (hnames : c.Named) :
    c.Uncommented := fun _ _ _ htext =>
  (Fcl.canOpen_conditionText htext hnames.inputs h.noStar).1.uncommented

/-- The controller that is read where a controller has been written. -/
def Controller.reread (c : Controller α) : Controller α :=
  { c with
    inputs := c.inputs.map Variable.reread
    outputs := c.outputs.map OutputVariable.reread
    rules := (c.rules.map (Rule.reread c)).foldl Fcl.withRule [] }

theorem Controller.Populated.writable_input {c : Controller α} (hc : c.Populated)
    (hprinted : c.Printed) (hnames : c.Named) {v : Variable α} (hv : v ∈ c.inputs) : v.Writable :=
  (hnames.inputs v hv).writable fun t ht => ⟨hc.inputs v hv t ht, hprinted.inputs v hv t ht⟩

theorem Controller.Populated.writable_output {c : Controller α} (hc : c.Populated)
    (hprinted : c.Printed) (hnames : c.Named) {o : OutputVariable α} (ho : o ∈ c.outputs) :
    o.Writable :=
  ⟨(hnames.outputs o ho).writable fun t ht => ⟨hc.outputs o ho t ht, hprinted.outputs o ho t ht⟩,
    hc.nonempty o ho, hprinted.defaults o ho⟩

theorem Variable.sameTerms_reread (v : Variable α) : v.SameTerms v.reread := by
  refine ⟨rfl, ?_⟩
  unfold Variable.reread
  rw [List.map_map]
  rfl

theorem OutputVariable.sameTerms_of_outline {o o' : OutputVariable α}
    (h : o'.outline = o.reread.outline) : o.toVariable.SameTerms o'.toVariable := by
  have hvariable : o'.toVariable.outline = o.toVariable.reread.outline := congrArg Prod.fst h
  refine ⟨congrArg Prod.fst hvariable, ?_⟩
  rw [← o.toVariable.sameTerms_reread.2, ← Variable.names_of_outline, ← Variable.names_of_outline,
    hvariable]

/-! ## What is declared under a configuration -/

theorem Config.Sound.exists_resolution {config : Config α} (h : config.Sound) :
    ∃ n, resolution? config.resolution = .ok n := by
  obtain ⟨⟨data, hdata⟩, -⟩ := h
  obtain ⟨norm, -, h⟩ := bind_eq_ok.mp hdata
  obtain ⟨activation, -, h⟩ := bind_eq_ok.mp h
  obtain ⟨accumulation, -, h⟩ := bind_eq_ok.mp h
  obtain ⟨defuzzification, -, h⟩ := bind_eq_ok.mp h
  obtain ⟨n, hn, h⟩ := bind_eq_ok.mp h
  obtain rfl := Except.ok.inj h
  exact ⟨n, hn⟩

namespace Fcl

theorem select_label (method : Defuzzification) :
    Choice.defuzzification.select (.text method.label : Setting α) = .ok method := by
  cases method <;> rfl

-- Every declaration of an output makes one that has no terms.
theorem exists_declaredOutput {config : Config α} (h : config.Sound) (name : String) :
    ∃ made, declaredOutput config name = .ok made ∧ made.name = name ∧
      made.replaceTerms [] = made := by
  obtain ⟨n, hn⟩ := h.exists_resolution
  obtain ⟨-, default, hdefault⟩ := h
  refine ⟨_, bind_eq_ok.mpr ⟨default, mapError_eq_ok.mpr hdefault, bind_eq_ok.mpr ⟨n, hn,
    bind_eq_ok.mpr ⟨_, mapError_eq_ok.mpr (select_label _), rfl⟩⟩⟩, rfl, rfl⟩

/-! ## The block of the rules -/

theorem isLabel_norm (norm : NormPair) : IsLabel norm.andLabel := by
  cases norm <;> decide

theorem isLabel_activation (activation : Activation) : IsLabel activation.label := by
  cases activation <;> decide

theorem isLabel_accumulation (accumulation : Accumulation) : IsLabel accumulation.label := by
  cases accumulation <;> decide

section Rules

variable {c d : Controller α} {described : List String}

theorem readsLine_norm (norm : NormPair) :
    ReadsLine ("\tAND : " ++ norm.andLabel ++ ";").toList ⟨d, some ⟨.rules, ""⟩, described⟩
      ⟨{ d with operators := { d.operators with norm } }, some ⟨.rules, ""⟩, described⟩ := by
  refine readsLine_setting "\tAND : " (by decide) (isLabel_norm norm) rfl
    (readSetting_and norm) fun line hcontent hkeyword hjudge => ?_
  rw [readLine_rules hcontent]
  unfold readRuleLine
  rw [hkeyword]
  exact bind_eq_ok.mpr ⟨norm, hjudge, rfl⟩

theorem readsLine_activation (activation : Activation) :
    ReadsLine ("\tACT : " ++ activation.label ++ ";").toList ⟨d, some ⟨.rules, ""⟩, described⟩
      ⟨{ d with operators := { d.operators with activation } }, some ⟨.rules, ""⟩, described⟩ := by
  refine readsLine_setting "\tACT : " (by decide) (isLabel_activation activation) rfl
    (readSetting_act activation) fun line hcontent hkeyword hjudge => ?_
  rw [readLine_rules hcontent]
  unfold readRuleLine
  rw [hkeyword]
  exact bind_eq_ok.mpr ⟨activation, hjudge, rfl⟩

theorem readsLine_accumulation (accumulation : Accumulation) :
    ReadsLine ("\tACCU : " ++ accumulation.label ++ ";").toList ⟨d, some ⟨.rules, ""⟩, described⟩
      ⟨{ d with operators := { d.operators with accumulation } }, some ⟨.rules, ""⟩,
        described⟩ := by
  refine readsLine_setting "\tACCU : " (by decide) (isLabel_accumulation accumulation) rfl
    (readSetting_accu accumulation) fun line hcontent hkeyword hjudge => ?_
  rw [readLine_rules hcontent]
  unfold readRuleLine
  rw [hkeyword]
  exact bind_eq_ok.mpr ⟨accumulation, hjudge, rfl⟩

theorem readsLine_endRules : ReadsLine "END_RULEBLOCK".toList
    ⟨d, some ⟨.rules, ""⟩, described⟩ ⟨d, none, described⟩ := by
  refine readsLine_keyword (by decide) fun line hcontent hkeyword => ?_
  rw [readLine_rules hcontent]
  unfold readRuleLine
  rw [hkeyword]
  rfl

theorem readsLine_rule [Scalar.PlainText α] {r : Rule α} {line : String} {number : Nat}
    (hline : ruleLine c number r = .ok line) (hnames : c.Named)
    (hweight : Scalar.Legible r.conclusion.weight) (hcomment : Uncommented line.toList)
    (hsame : c.SameTerms d) :
    ReadsLine line.toList ⟨d, some ⟨.rules, ""⟩, described⟩
      ⟨{ d with rules := withRule d.rules (r.reread c) }, some ⟨.rules, ""⟩, described⟩ := by
  intro n
  have hword : IsKeyword "RULE".toList := by decide
  obtain ⟨ps, htext, hne, hpieces, hread⟩ := readRule_pieces hline hnames.inputs hnames.outputs
    hweight hsame.inputs hsame.outputs
  rw [htext] at hcomment ⊢
  obtain ⟨hcontent, hkeyword, hstatement⟩ := ofRaw_uncommented hword hpieces hne hcomment n
  obtain ⟨notices, hadd⟩ := addRule_of_valid (readRule_valid hread)
  refine ⟨notices, ?_⟩
  rw [readLine_rules hcontent]
  unfold readRuleLine
  rw [hkeyword]
  refine bind_eq_ok.mpr ⟨_, judge_statement hstatement hread, ?_⟩
  rw [hadd]
  rfl

-- The lines of the rules, one below the other.
theorem reads_rules [Scalar.PlainText α] (described : List String) {items : List (Rule α × Nat)}
    {lines : List String}
    (hlines : Forall₂ (fun (item : Rule α × Nat) line =>
      ruleLine c (item.2 + 1) item.1 = .ok line) items lines)
    (hnames : c.Named) (hweights : ∀ item ∈ items, Scalar.Legible item.1.conclusion.weight)
    (hcomments : ∀ l ∈ lines, Uncommented l.toList) (hsame : c.SameTerms d) :
    Reads lines ⟨d, some ⟨.rules, ""⟩, described⟩
      ⟨{ d with rules := (items.map fun item => item.1.reread c).foldl withRule d.rules },
        some ⟨.rules, ""⟩, described⟩ := by
  induction hlines generalizing d with
  | nil => exact .nil _
  | @cons item line items lines hline _ ih =>
    obtain ⟨hweight, hweights⟩ := List.forall_mem_cons.mp hweights
    obtain ⟨hcomment, hcomments⟩ := List.forall_mem_cons.mp hcomments
    have hnext : c.SameTerms { d with rules := withRule d.rules (item.1.reread c) } :=
      ⟨hsame.inputs, hsame.outputs⟩
    exact .cons (readsLine_rule hline hnames hweight hcomment hsame)
      (ih hweights hcomments hnext)

-- Brackets begin comments in the lines of the rules where they do in the conditions.
theorem uncommented_ruleLines [Scalar.PlainText α] {rules : List String}
    (hrules : (c.rules.zipIdx.mapM fun (r, i) => ruleLine c (i + 1) r) = .ok rules)
    (hnames : c.Named) (hweights : ∀ r ∈ c.rules, Scalar.Legible r.conclusion.weight) :
    (∀ l ∈ rules, Uncommented l.toList) ↔ c.Uncommented := by
  constructor
  · intro h r hr
    obtain ⟨i, hi⟩ := List.mem_iff_getElem?.mp hr
    have hitem : (r, i) ∈ c.rules.zipIdx := List.mem_zipIdx_iff_getElem?.mpr hi
    obtain ⟨l, hl, hline⟩ := exists_mem_of_mapM_eq_ok hrules hitem
    exact (uncommented_ruleLine hline hnames.outputs (hweights r hr)).mp (h l hl)
  · intro h l hl
    obtain ⟨item, hitem, hline⟩ := mem_of_mapM_eq_ok hrules hl
    have hr := List.fst_mem_of_mem_zipIdx hitem
    exact (uncommented_ruleLine hline hnames.outputs (hweights _ hr)).mpr (h _ hr)

-- The lines in front of the rules.
theorem reads_settings : Reads ["RULEBLOCK", "\tAND : " ++ c.operators.norm.andLabel ++ ";",
    "\tACT : " ++ c.operators.activation.label ++ ";",
    "\tACCU : " ++ c.operators.accumulation.label ++ ";"] ⟨d, none, described⟩
      ⟨{ d with operators := c.operators }, some ⟨.rules, ""⟩, described⟩ := by
  have hopen : ReadsLine "RULEBLOCK".toList ⟨d, none, described⟩
      ⟨d, some ⟨.rules, ""⟩, described⟩ := by
    rw [show "RULEBLOCK" = Block.rules.keyword from rfl]
    exact readsLine_opening (.inr (.inr rfl))
  exact .cons hopen (.cons (readsLine_norm c.operators.norm)
    (.cons (readsLine_activation c.operators.activation)
      (.single (readsLine_accumulation c.operators.accumulation))))

-- The block of the rules.
theorem reads_ruleLines [Scalar.PlainText α] (described : List String) {lines : List String}
    (hlines : ruleLines c = .ok lines) (hnames : c.Named)
    (hweights : ∀ r ∈ c.rules, Scalar.Legible r.conclusion.weight) (hcomments : c.Uncommented)
    (hsame : c.SameTerms d) :
    Reads lines ⟨d, none, described⟩
      ⟨{ d with
        operators := c.operators
        rules := (c.rules.map (Rule.reread c)).foldl withRule d.rules }, none, described⟩ := by
  obtain ⟨rules, hrules, h⟩ := bind_eq_ok.mp hlines
  obtain rfl := Except.ok.inj h
  have hweights' : ∀ item ∈ c.rules.zipIdx, Scalar.Legible item.1.conclusion.weight :=
    fun item hitem => hweights item.1 (List.fst_mem_of_mem_zipIdx hitem)
  have hcomments' := (uncommented_ruleLines hrules hnames hweights).mpr hcomments
  have hreread : c.rules.zipIdx.map (fun item => item.1.reread c) =
      c.rules.map (Rule.reread c) := by
    conv_rhs => rw [← List.zipIdx_map_fst 0 c.rules, List.map_map]
    rfl
  -- the settings of the block leave the variables as they are
  have hsame' : c.SameTerms { d with operators := c.operators } :=
    ⟨hsame.inputs, hsame.outputs⟩
  have hread := reads_rules described (mapM_eq_ok.mp hrules) hnames hweights' hcomments' hsame'
  rw [hreread] at hread
  exact (reads_settings.append hread).append (.single readsLine_endRules)

end Rules

/-! ## The whole text -/

theorem oneLine_statement {line word : String} {ps : List (List Char)}
    (hline : line.toList = '\t' :: spaced (word.toList :: ps) ++ [';'])
    (hword : IsPiece word.toList) (hps : ∀ p ∈ ps, IsPiece p) : OneLine line := by
  unfold OneLine
  rw [hline]
  refine List.forall_mem_append.mpr ⟨List.forall_mem_cons.mpr ⟨by decide, ?_⟩, by decide⟩
  exact not_lineBreak_spaced (List.forall_mem_cons.mpr ⟨hword, hps⟩)

theorem oneLine_text [Scalar.PlainText α] (x : α) : OneLine (Scalar.text x) := fun c hc =>
  not_lineBreak_of_not_blank (Scalar.PlainText.not_blank x c hc)

theorem oneLine_declarationLines {block : Block} {names : List String}
    (h : ∀ name ∈ names, OneLine name) : ∀ l ∈ declarationLines block names, OneLine l := by
  unfold declarationLines
  refine List.forall_mem_append.mpr ⟨List.forall_mem_cons.mpr ⟨?_, ?_⟩,
    List.forall_mem_singleton.mpr (by decide)⟩
  · cases block <;> decide
  · intro l hl
    obtain ⟨name, hname, rfl⟩ := List.mem_map.mp hl
    exact (h name hname).enclosed (by decide) (by decide)

theorem oneLine_termLines [Scalar.PlainText α] {v : Variable α} (h : v.Named) :
    ∀ l ∈ v.terms.map termLine, OneLine l := by
  have hpoint (p : Point α) : OneLine p.text :=
    (((OneLine.append (by decide) (oneLine_text p.x)).append (by decide)).append
      (oneLine_text p.y)).append (by decide)
  intro l hl
  obtain ⟨t, ht, rfl⟩ := List.mem_map.mp hl
  have hpoints : OneLine (" ".intercalate (t.points.map Point.text)) := by
    intro c hc
    rw [String.toList_intercalate] at hc
    rcases mem_spaced hc with rfl | ⟨text, htext, hc⟩
    · decide
    · simp only [List.map_map, List.mem_map] at htext
      obtain ⟨p, -, rfl⟩ := htext
      exact hpoint p c hc
  exact (((OneLine.append (by decide) (h.terms t ht).oneLine).append (by decide)).append
    hpoints).append (by decide)

theorem oneLine_fuzzifyLines [Scalar.PlainText α] {v : Variable α} (h : v.Named) :
    ∀ l ∈ fuzzifyLines v, OneLine l := by
  unfold fuzzifyLines
  exact List.forall_mem_append.mpr ⟨List.forall_mem_cons.mpr
    ⟨OneLine.append (by decide) h.name.oneLine, oneLine_termLines h⟩,
    List.forall_mem_singleton.mpr (by decide)⟩

theorem oneLine_defuzzifyLines [Scalar.PlainText α] {o : OutputVariable α}
    (h : o.toVariable.Named) : ∀ l ∈ defuzzifyLines o, OneLine l := by
  have hmethod : OneLine o.method.label := by cases o.method <;> decide
  unfold defuzzifyLines
  refine List.forall_mem_append.mpr ⟨List.forall_mem_cons.mpr
    ⟨OneLine.append (by decide) h.name.oneLine, oneLine_termLines h⟩, ?_⟩
  refine List.forall_mem_cons.mpr ⟨hmethod.enclosed (by decide) (by decide),
    List.forall_mem_cons.mpr ⟨(oneLine_text o.defaultValue).enclosed (by decide) (by decide),
      List.forall_mem_singleton.mpr (by decide)⟩⟩

theorem oneLine_ruleLines [Scalar.PlainText α] {c : Controller α} {lines : List String}
    (hlines : ruleLines c = .ok lines) (hnames : c.Named)
    (hweights : ∀ r ∈ c.rules, Scalar.Legible r.conclusion.weight) : ∀ l ∈ lines, OneLine l := by
  obtain ⟨rules, hrules, h⟩ := bind_eq_ok.mp hlines
  obtain rfl := Except.ok.inj h
  have hnorm : OneLine c.operators.norm.andLabel := by cases c.operators.norm <;> decide
  have hactivation : OneLine c.operators.activation.label := by
    cases c.operators.activation <;> decide
  have haccumulation : OneLine c.operators.accumulation.label := by
    cases c.operators.accumulation <;> decide
  refine List.forall_mem_append.mpr ⟨List.forall_mem_append.mpr ⟨?_, ?_⟩,
    List.forall_mem_singleton.mpr (by decide)⟩
  · exact List.forall_mem_cons.mpr ⟨by decide, List.forall_mem_cons.mpr
      ⟨hnorm.enclosed (by decide) (by decide), List.forall_mem_cons.mpr
        ⟨hactivation.enclosed (by decide) (by decide),
          List.forall_mem_singleton.mpr (haccumulation.enclosed (by decide) (by decide))⟩⟩⟩
  · intro l hl
    obtain ⟨item, hitem, hline⟩ := mem_of_mapM_eq_ok hrules hl
    have hword : IsPiece "RULE".toList := by decide
    obtain ⟨ps, htext, -, hpieces, -⟩ := readRule_pieces hline hnames.inputs hnames.outputs
      (hweights _ (List.fst_mem_of_mem_zipIdx hitem)) (Controller.SameTerms.refl c).inputs
      (Controller.SameTerms.refl c).outputs
    exact oneLine_statement htext hword fun p hp => (hpieces p hp).1

-- No line of a written controller holds a line break.
theorem oneLine_controllerLines [Scalar.PlainText α] {c : Controller α} {lines : List String}
    (hlines : controllerLines c = .ok lines)
    (hweights : ∀ r ∈ c.rules, Scalar.Legible r.conclusion.weight) : ∀ l ∈ lines, OneLine l := by
  obtain ⟨_, hcheck, h⟩ := bind_eq_ok.mp hlines
  obtain ⟨rules, hrules, h⟩ := bind_eq_ok.mp h
  obtain rfl := Except.ok.inj h
  have hnames := Controller.named_of_check hcheck
  have hheader :
      OneLine (if c.name = "" then "FUNCTION_BLOCK" else "FUNCTION_BLOCK " ++ c.name) := by
    split
    · decide
    · exact OneLine.append (by decide) (hnames.name ‹_›).oneLine
  have hinputs : ∀ name ∈ c.inputs.map (·.name), OneLine name := by
    intro name hname
    obtain ⟨v, hv, rfl⟩ := List.mem_map.mp hname
    exact (hnames.inputs v hv).name.oneLine
  have houtputs : ∀ name ∈ c.outputs.map (·.name), OneLine name := by
    intro name hname
    obtain ⟨o, ho, rfl⟩ := List.mem_map.mp hname
    exact (hnames.outputs o ho).name.oneLine
  simp only [List.forall_mem_append, List.forall_mem_singleton, List.forall_mem_flatMap]
  refine ⟨⟨⟨⟨⟨⟨hheader, oneLine_declarationLines hinputs⟩, oneLine_declarationLines houtputs⟩, ?_⟩,
    ?_⟩, oneLine_ruleLines hrules hnames hweights⟩, by decide⟩
  · exact fun v hv => oneLine_fuzzifyLines (hnames.inputs v hv)
  · exact fun o ho => oneLine_defuzzifyLines (hnames.outputs o ho)

/-- The lines in front of the descriptions of the variables. -/
def openingLines (c : Controller α) : List String :=
  [if c.name = "" then "FUNCTION_BLOCK" else "FUNCTION_BLOCK " ++ c.name] ++
    declarationLines .inputs (c.inputs.map (·.name)) ++
    declarationLines .outputs (c.outputs.map (·.name))

theorem controllerLines_eq_ok {c : Controller α} {lines : List String} :
    controllerLines c = .ok lines ↔ checkNames c = .ok () ∧ ∃ rules, ruleLines c = .ok rules ∧
      lines = openingLines c ++ c.inputs.flatMap fuzzifyLines ++
        c.outputs.flatMap defuzzifyLines ++ rules ++ ["END_FUNCTION_BLOCK"] := by
  constructor
  · intro h
    obtain ⟨_, hcheck, h⟩ := bind_eq_ok.mp h
    obtain ⟨rules, hrules, h⟩ := bind_eq_ok.mp h
    exact ⟨hcheck, rules, hrules, (Except.ok.inj h).symm⟩
  · rintro ⟨hcheck, rules, hrules, rfl⟩
    exact bind_eq_ok.mpr ⟨(), hcheck, bind_eq_ok.mpr ⟨rules, hrules, rfl⟩⟩

-- The lines that declare the variables, each of which has no terms yet.
theorem reads_openingLines {c : Controller α} (hnames : c.Named) (hconfig : c.config.Sound)
    (hdistinct : c.NamesDistinct) (operators : Operators) : ∃ mades,
      Forall₂ (fun o made => made.name = o.name ∧ made.replaceTerms [] = made) c.outputs mades ∧
        Reads (openingLines c) (Progress.start c.config operators)
          ⟨⟨c.config, c.name, c.inputs.map fun v => ⟨v.name, []⟩, mades, [], operators⟩, none,
            []⟩ := by
  obtain ⟨hinputs, houtputs, -⟩ := List.nodup_append.mp hdistinct
  have hheader : Reads [if c.name = "" then "FUNCTION_BLOCK" else "FUNCTION_BLOCK " ++ c.name]
      (Progress.start c.config operators)
      ⟨⟨c.config, c.name, [], [], [], operators⟩, none, []⟩ :=
    .single (readsLine_header hnames.name)
  have hdeclareInputs : Reads (declarationLines .inputs (c.inputs.map (·.name)))
      ⟨⟨c.config, c.name, [], [], [], operators⟩, none, []⟩
      ⟨⟨c.config, c.name, c.inputs.map fun v => ⟨v.name, []⟩, [], [], operators⟩, none, []⟩ :=
    reads_declareInputs (fun v hv => (hnames.inputs v hv).name)
      (fun v _ => List.not_mem_nil) hinputs
  have hother := hdistinct.not_mem_inputs
  choose made hmade using exists_declaredOutput hconfig
  refine ⟨c.outputs.map fun o => made o.name, ?_, (hheader.append hdeclareInputs).append ?_⟩
  · exact List.forall₂_map_right_iff.mpr (List.forall₂_same.mpr fun o _ => (hmade o.name).2)
  · exact reads_declareOutputs (fun name => ⟨(hmade name).1, (hmade name).2.1⟩)
      (fun o ho => (hnames.outputs o ho).name)
      (fun o ho => by simpa [Controller.names] using hother o ho) houtputs

-- The lines up to the descriptions of the inputs.
theorem reads_inputLines [Scalar.PlainText α] {c : Controller α} (hnames : c.Named)
    (hconfig : c.config.Sound) (hdistinct : c.NamesDistinct) (hinputs : ∀ v ∈ c.inputs, v.Writable)
    (operators : Operators) : ∃ mades,
      Forall₂ (fun o made => made.name = o.name ∧ made.replaceTerms [] = made) c.outputs mades ∧
        Reads (openingLines c ++ c.inputs.flatMap fuzzifyLines)
          (Progress.start c.config operators)
          ⟨⟨c.config, c.name, c.inputs.map Variable.reread, mades, [], operators⟩, none,
            (c.inputs.map (·.name)).reverse ++ []⟩ := by
  obtain ⟨mades, hmades, hopening⟩ := reads_openingLines hnames hconfig hdistinct operators
  have hdescribe := reads_inputs ⟨c.config, c.name, [], mades, [], operators⟩ [] hinputs
    (List.nodup_append.mp hdistinct).1 fun _ _ => List.not_mem_nil
  exact ⟨mades, hmades, hopening.append hdescribe⟩

-- The lines up to the descriptions of the outputs.
theorem reads_outputLines [Scalar.PlainText α] {c : Controller α} (hnames : c.Named)
    (hconfig : c.config.Sound) (hdistinct : c.NamesDistinct) (hpopulated : c.Populated)
    (hprinted : c.Printed) (operators : Operators) : ∃ outputs described,
      Forall₂ (fun o o' => o'.outline = o.reread.outline) c.outputs outputs ∧
        Reads (openingLines c ++ c.inputs.flatMap fuzzifyLines ++ c.outputs.flatMap defuzzifyLines)
          (Progress.start c.config operators)
          ⟨⟨c.config, c.name, c.inputs.map Variable.reread, outputs, [], operators⟩, none,
            described⟩ := by
  obtain ⟨mades, hmades, hinputs⟩ := reads_inputLines hnames hconfig hdistinct
    (fun v hv => hpopulated.writable_input hprinted hnames hv) operators
  have hother := hdistinct.not_mem_inputs
  obtain ⟨outputs, hsame, hdescribe⟩ := reads_outputs
    ⟨c.config, c.name, c.inputs.map Variable.reread, [], [], operators⟩ []
    (fun o ho => hpopulated.writable_output hprinted hnames ho) hmades
    (List.nodup_append.mp hdistinct).2.1
    fun o ho => show o.name ∉ (c.inputs.map (·.name)).reverse ++ [] by simpa using hother o ho
  exact ⟨outputs, _, hsame, hinputs.append hdescribe⟩

theorem sameTerms_of_outlines {c : Controller α} {outputs : List (OutputVariable α)}
    (h : Forall₂ (fun o o' => o'.outline = o.reread.outline) c.outputs outputs)
    (operators : Operators) : c.SameTerms
      ⟨c.config, c.name, c.inputs.map Variable.reread, outputs, [], operators⟩ :=
  ⟨List.forall₂_map_right_iff.mpr (List.forall₂_same.mpr fun v _ => v.sameTerms_reread),
    h.imp fun _ _ h => OutputVariable.sameTerms_of_outline h⟩

-- The lines of a controller, read under its configuration.
theorem reads_controllerLines [Scalar.PlainText α] {c : Controller α} {lines : List String}
    (hlines : controllerLines c = .ok lines) (hconfig : c.config.Sound)
    (hdistinct : c.NamesDistinct) (hpopulated : c.Populated) (hprinted : c.Printed)
    (hcomments : c.Uncommented) (operators : Operators) : ∃ outputs described,
      Forall₂ (fun o o' => o'.outline = o.reread.outline) c.outputs outputs ∧
        Reads lines (Progress.start c.config operators)
          ⟨{ c.reread with outputs }, none, described⟩ := by
  obtain ⟨hcheck, rules, hrules, rfl⟩ := controllerLines_eq_ok.mp hlines
  have hnames := Controller.named_of_check hcheck
  obtain ⟨outputs, described, hsame, hvariables⟩ :=
    reads_outputLines hnames hconfig hdistinct hpopulated hprinted operators
  have hrules := reads_ruleLines described hrules hnames hprinted.weights hcomments
    (sameTerms_of_outlines hsame operators)
  exact ⟨outputs, _, hsame, (hvariables.append hrules).append (.single readsLine_end)⟩

-- Lines that lead out of all blocks make up a text that is read.
theorem readFor_join (base : Controller α) {ls : List String} {d : Controller α}
    {described : List String} (hlines : ∀ l ∈ ls, OneLine l)
    (hreads : Reads ls (Progress.start base.config base.operators) ⟨d, none, described⟩) :
    (readFor base (String.join (ls.map (· ++ "\n"))).toList).state.controller = d ∧
      (readFor base (String.join (ls.map (· ++ "\n"))).toList).answer = .ok () := by
  obtain ⟨notices, hread⟩ := hreads 0
  unfold readFor readLines linesOf
  rw [lines_join hlines, Action.bind_eq, Action.andThen_of_ok hread]
  exact ⟨rfl, rfl⟩

/-- A written controller is read without a fault, up to what is read again, if every term and every
output can be read and no bracket begins a comment. -/
theorem exists_readFcl_of_uncommented [Scalar.PlainText α] {c : Controller α} {text : String}
    (htext : c.toFcl = .ok text) (hconfig : c.config.Sound) (hdistinct : c.NamesDistinct)
    (hpopulated : c.Populated) (hprinted : c.Printed) (hcomments : c.Uncommented) :
    ∃ c' notices,
      (Controller.ofConfig c.config "").readFcl text.toList = ⟨c', notices, .ok ()⟩ ∧
        c'.config = c.config ∧ c'.outline = c.reread.outline := by
  obtain ⟨lines, hlines, rfl⟩ := map_eq_ok.mp htext
  obtain ⟨outputs, described, hsame, hreads⟩ := reads_controllerLines hlines hconfig hdistinct
    hpopulated hprinted hcomments (Controller.ofConfig c.config "").operators
  obtain ⟨hstate, hanswer⟩ := readFor_join (Controller.ofConfig c.config "")
    (oneLine_controllerLines hlines hprinted.weights) hreads
  obtain ⟨notices, hread⟩ := readFcl_of_disjoint hanswer fun name _ => List.not_mem_nil
  refine ⟨_, notices, hread, rfl, ?_⟩
  -- a controller without a name keeps the one it is read into, which has none either
  have hname : (if c.name = "" then "" else c.name) = c.name := by
    split
    · exact (‹c.name = ""›).symm
    · rfl
  have houtputs : outputs.map OutputVariable.outline =
      (c.outputs.map OutputVariable.reread).map OutputVariable.outline := by
    rw [List.map_map, ← List.forall₂_eq_eq_eq, List.forall₂_map_left_iff,
      List.forall₂_map_right_iff]
    exact hsame.flip
  have hnil : RulesDistinct ([] : List (Rule α)) := List.Pairwise.nil
  have hrules : c.reread.rules.foldl withRule [] = c.reread.rules :=
    foldl_withRule_of_distinct (hnil.foldl_withRule _)
  rw [hstate]
  exact Outline.mk.injEq .. ▸ ⟨hname, rfl, houtputs, rfl, congrArg (List.map Rule.outline) hrules⟩

theorem exists_readFcl_toFcl [Scalar.PlainText α] {c : Controller α} {text : String}
    (htext : c.toFcl = .ok text) (hconfig : c.config.Sound) (hdistinct : c.NamesDistinct)
    (hc : c.Legible) : ∃ c' notices,
      (Controller.ofConfig c.config "").readFcl text.toList = ⟨c', notices, .ok ()⟩ ∧
        c'.config = c.config ∧ c'.outline = c.reread.outline := by
  obtain ⟨lines, hlines, -⟩ := map_eq_ok.mp htext
  have hnames := Controller.named_of_check (controllerLines_eq_ok.mp hlines).1
  exact exists_readFcl_of_uncommented htext hconfig hdistinct hc.populated hc.printed
    (hc.uncommented hnames)

end Fcl

end FuzzyInference
