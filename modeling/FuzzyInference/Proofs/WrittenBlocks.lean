import FuzzyInference.Proofs.Joining
import FuzzyInference.Proofs.WrittenLines
import FuzzyInference.Proofs.WrittenRules
import FuzzyInference.Proofs.WrittenTerms

/-!
# Blocks that are written

The blocks of a written text, read one line after the other.
-/

namespace FuzzyInference.Fcl

variable {α : Type} [Scalar α]

/-- The lines, wherever they stand in a text, lead from `p` to `q`. -/
def Reads (ls : List String) (p q : Progress α) : Prop :=
  ∀ n : Nat, ∃ notices,
    Action.forEach (((ls.map String.toList).zipIdx n).map fun (raw, i) => Line.ofRaw (i + 1) raw)
      (fun line => Action.changeNoting (readLine line)) p = ⟨q, notices, .ok ()⟩

/-- The line, wherever it stands in a text, leads from `p` to `q`. -/
def ReadsLine (raw : List Char) (p q : Progress α) : Prop :=
  ∀ n : Nat, ∃ notices, readLine (Line.ofRaw n raw) p = .ok (q, notices)

theorem Reads.nil (p : Progress α) : Reads [] p p := fun _ => ⟨[], rfl⟩

theorem Reads.cons {l : String} {ls : List String} {p q r : Progress α}
    (h : ReadsLine l.toList p q) (hs : Reads ls q r) : Reads (l :: ls) p r := by
  intro n
  obtain ⟨notices, hl⟩ := h (n + 1)
  obtain ⟨more, hls⟩ := hs (n + 1)
  have hfirst : Action.changeNoting (readLine (Line.ofRaw (n + 1) l.toList)) p =
      ⟨q, notices, .ok ()⟩ := by
    unfold Action.changeNoting
    rw [hl]
  refine ⟨notices ++ more, ?_⟩
  rw [List.map_cons, List.zipIdx_cons, List.map_cons, Action.forEach, Action.andThen_of_ok hfirst,
    hls]

theorem Reads.append {ls ms : List String} {p q r : Progress α} (h : Reads ls p q)
    (hs : Reads ms q r) : Reads (ls ++ ms) p r := by
  intro n
  obtain ⟨notices, hl⟩ := h n
  obtain ⟨more, hm⟩ := hs (n + ls.length)
  refine ⟨notices ++ more, ?_⟩
  rw [List.map_append, List.zipIdx_append, List.map_append, List.length_map]
  exact Action.forEach_append_of_ok hl hm

theorem Reads.single {l : String} {p q : Progress α} (h : ReadsLine l.toList p q) : Reads [l] p q :=
  .cons h (.nil q)

-- A keyword alone on its line leads where every line with this keyword leads.
theorem readsLine_keyword {word : String} {p q : Progress α} (hword : IsKeyword word.toList)
    (h : ∀ line : Line, line.content.isEmpty = false → line.keyword = word →
      readLine line p = .ok (q, [])) : ReadsLine word.toList p q := by
  intro n
  obtain ⟨hcontent, hkeyword, -⟩ := ofRaw_keyword hword n
  exact ⟨[], h _ hcontent hkeyword⟩

/-! ## Lines outside of the blocks -/

theorem isKeyword_block (block : Block) : IsKeyword block.keyword.toList := by
  cases block <;> decide

section Outside

variable {c : Controller α} {described : List String}

theorem readLine_outside {line : Line} (h : line.content.isEmpty = false) :
    readLine line ⟨c, none, described⟩ = readOutside line ⟨c, none, described⟩ := by
  unfold readLine
  rw [if_neg (by simp [h])]

theorem readsLine_header {name : String} (h : name ≠ "" → Admitted (spacedWords name.toList)) :
    ReadsLine (if name = "" then "FUNCTION_BLOCK" else "FUNCTION_BLOCK " ++ name).toList
      ⟨c, none, described⟩ ⟨{ c with name }, none, described⟩ := by
  intro n
  have hword : IsKeyword "FUNCTION_BLOCK".toList := by decide
  refine ⟨[], ?_⟩
  by_cases hname : name = ""
  · subst hname
    obtain ⟨hcontent, hkeyword, hsubject⟩ := ofRaw_keyword hword n
    rw [if_pos rfl, readLine_outside hcontent]
    unfold readOutside
    rw [hkeyword, hsubject]
    rfl
  · obtain ⟨hcontent, hkeyword, hsubject⟩ := ofRaw_subject hword (h hname) n
    have htext : ("FUNCTION_BLOCK " ++ name).toList =
        "FUNCTION_BLOCK".toList ++ ' ' :: name.toList := by
      simp [String.toList_append]
    rw [if_neg hname, htext, readLine_outside hcontent]
    unfold readOutside
    rw [hkeyword, hsubject]
    rfl

theorem readsLine_end : ReadsLine "END_FUNCTION_BLOCK".toList ⟨c, none, described⟩
    ⟨c, none, described⟩ := by
  refine readsLine_keyword (by decide) fun line hcontent hkeyword => ?_
  rw [readLine_outside hcontent]
  unfold readOutside
  rw [hkeyword]
  rfl

theorem readsLine_opening {block : Block}
    (h : block = .inputs ∨ block = .outputs ∨ block = .rules) :
    ReadsLine block.keyword.toList ⟨c, none, described⟩ ⟨c, some ⟨block, ""⟩, described⟩ := by
  refine readsLine_keyword (isKeyword_block block) fun line hcontent hkeyword => ?_
  rw [readLine_outside hcontent]
  unfold readOutside
  rw [hkeyword]
  rcases h with rfl | rfl | rfl
  · rfl
  · rfl
  · rfl

-- The line that opens the description of a variable.
theorem readsLine_description {block : Block} {name : String}
    (hblock : block = .fuzzify ∧ (c.input? name).isSome = true ∨
      block = .defuzzify ∧ (c.output? name).isSome = true)
    (hname : Admitted (spacedWords name.toList)) (hnew : name ∉ described) :
    ReadsLine (block.keyword.toList ++ ' ' :: name.toList) ⟨c, none, described⟩
      ⟨c, some ⟨block, name⟩, name :: described⟩ := by
  intro n
  obtain ⟨hcontent, hkeyword, hsubject⟩ := ofRaw_subject (isKeyword_block block) hname n
  refine ⟨[], ?_⟩
  rw [readLine_outside hcontent]
  unfold readOutside
  rw [hkeyword]
  rcases hblock with ⟨rfl, hdeclared⟩ | ⟨rfl, hdeclared⟩
  · show openDescription _ .fuzzify _ = _
    unfold openDescription
    dsimp only
    rw [hsubject, if_neg (by simpa using hnew), if_pos hdeclared]
    rfl
  · show openDescription _ .defuzzify _ = _
    unfold openDescription
    dsimp only
    rw [hsubject, if_neg (by simpa using hnew), if_pos hdeclared]
    rfl

end Outside

/-! ## Declarations -/

theorem judge_statement {line : Line} {statement : List Char} {β : Type}
    {read : List Char → Except Problem β} {b : β} (hstatement : line.statement = .ok statement)
    (hread : read statement = .ok b) : line.judge (line.statement >>= read) = .ok b := by
  unfold Line.judge
  rw [mapError_eq_ok, bind_eq_ok]
  exact ⟨statement, hstatement, hread⟩

section Inside

variable {line : Line} {c : Controller α} {described : List String} {name : String}

theorem readLine_declaration (h : line.content.isEmpty = false) {block : Block}
    (hblock : block = .inputs ∨ block = .outputs) :
    readLine line ⟨c, some ⟨block, name⟩, described⟩ =
      readDeclaration line block ⟨c, some ⟨block, name⟩, described⟩ := by
  unfold readLine
  rw [h]
  rcases hblock with rfl | rfl
  · rfl
  · rfl

theorem readLine_fuzzify (h : line.content.isEmpty = false) :
    readLine line ⟨c, some ⟨.fuzzify, name⟩, described⟩ =
      readFuzzify line name ⟨c, some ⟨.fuzzify, name⟩, described⟩ := by
  unfold readLine
  rw [h]
  rfl

theorem readLine_defuzzify (h : line.content.isEmpty = false) :
    readLine line ⟨c, some ⟨.defuzzify, name⟩, described⟩ =
      readDefuzzify line name ⟨c, some ⟨.defuzzify, name⟩, described⟩ := by
  unfold readLine
  rw [h]
  rfl

theorem readLine_rules (h : line.content.isEmpty = false) :
    readLine line ⟨c, some ⟨.rules, name⟩, described⟩ =
      readRuleLine line ⟨c, some ⟨.rules, name⟩, described⟩ := by
  unfold readLine
  rw [h]
  rfl

end Inside

section Declarations

variable {c : Controller α} {described : List String}

theorem readsLine_endVar {block : Block} (h : block = .inputs ∨ block = .outputs) :
    ReadsLine "END_VAR".toList ⟨c, some ⟨block, ""⟩, described⟩ ⟨c, none, described⟩ := by
  refine readsLine_keyword (by decide) fun line hcontent hkeyword => ?_
  rw [readLine_declaration hcontent h]
  unfold readDeclaration
  rw [if_pos hkeyword]
  rfl

theorem toList_declaration (name : String) :
    ("\t" ++ name ++ " :\tREAL;").toList = '\t' :: name.toList ++ " :\tREAL;".toList := by
  rw [String.toList_append, String.toList_append]
  rfl

theorem judge_declaration {name : String} (hname : Admitted (spacedWords name.toList)) (n : Nat) :
    (Line.ofRaw n ("\t" ++ name ++ " :\tREAL;").toList).content.isEmpty = false ∧
      (Line.ofRaw n ("\t" ++ name ++ " :\tREAL;").toList).keyword ≠ "END_VAR" ∧
      (Line.ofRaw n ("\t" ++ name ++ " :\tREAL;").toList).judge
        ((Line.ofRaw n ("\t" ++ name ++ " :\tREAL;").toList).statement >>= declaredName) =
          .ok name := by
  rw [toList_declaration]
  obtain ⟨hcontent, hkeyword, hstatement⟩ := ofRaw_declaration hname n
  have hdeclared := declaredName_append hname
  rw [spaced_spacedWords, String.ofList_toList] at hdeclared
  exact ⟨hcontent, hkeyword, judge_statement hstatement hdeclared⟩

theorem readsLine_input {name : String} {c' : Controller α}
    (hadd : c.addInput ⟨name, []⟩ = .ok c') (hname : Admitted (spacedWords name.toList)) :
    ReadsLine ("\t" ++ name ++ " :\tREAL;").toList ⟨c, some ⟨.inputs, ""⟩, described⟩
      ⟨c', some ⟨.inputs, ""⟩, described⟩ := by
  intro n
  obtain ⟨hcontent, hkeyword, hjudge⟩ := judge_declaration hname n
  refine ⟨[], ?_⟩
  rw [readLine_declaration hcontent (.inl rfl)]
  unfold readDeclaration
  rw [if_neg hkeyword]
  exact bind_eq_ok.mpr ⟨name, hjudge, bind_eq_ok.mpr ⟨c', blame_eq_ok.mpr hadd, rfl⟩⟩

theorem readsLine_output {name : String} {o : OutputVariable α} {c' : Controller α}
    (ho : declaredOutput c.config name = .ok o) (hadd : c.addOutput o = .ok c')
    (hname : Admitted (spacedWords name.toList)) :
    ReadsLine ("\t" ++ name ++ " :\tREAL;").toList ⟨c, some ⟨.outputs, ""⟩, described⟩
      ⟨c', some ⟨.outputs, ""⟩, described⟩ := by
  intro n
  obtain ⟨hcontent, hkeyword, hjudge⟩ := judge_declaration hname n
  have hmake : declaredOutput c.config name >>= c.addOutput = .ok c' :=
    bind_eq_ok.mpr ⟨o, ho, hadd⟩
  refine ⟨[], ?_⟩
  rw [readLine_declaration hcontent (.inr rfl)]
  unfold readDeclaration
  rw [if_neg hkeyword]
  exact bind_eq_ok.mpr ⟨name, hjudge, bind_eq_ok.mpr ⟨c', blame_eq_ok.mpr hmake, rfl⟩⟩

-- Names that are declared one below the other, by additions that succeed.
theorem reads_declarations {β : Type} (block : Block) (nameOf : β → String) {items : List β}
    {add : Controller α → β → Except Fault (Controller α)} {config : Config α} {c' : Controller α}
    (hadd : items.foldlM add c = .ok c') (hconfig : c.config = config)
    (hline : ∀ b ∈ items, ∀ c c₁ : Controller α, c.config = config → add c b = .ok c₁ →
      c₁.config = c.config ∧ ReadsLine ("\t" ++ nameOf b ++ " :\tREAL;").toList
        ⟨c, some ⟨block, ""⟩, described⟩ ⟨c₁, some ⟨block, ""⟩, described⟩) :
    Reads (items.map fun b => "\t" ++ nameOf b ++ " :\tREAL;") ⟨c, some ⟨block, ""⟩, described⟩
      ⟨c', some ⟨block, ""⟩, described⟩ := by
  -- on the names, together with the additions they stand for
  induction items generalizing c with
  | nil =>
    obtain rfl : c = c' := Except.ok.inj hadd
    exact .nil _
  | cons b items ih =>
    rw [List.foldlM_cons, bind_eq_ok] at hadd
    obtain ⟨c₁, hfirst, hrest⟩ := hadd
    obtain ⟨hsame, hreads⟩ := hline b (by simp) c c₁ hconfig hfirst
    exact .cons hreads (ih hrest (hsame.trans hconfig) fun d hd => hline d (by simp [hd]))

-- The block that declares inputs.
theorem reads_declareInputs {vs : List (Variable α)}
    (hnames : ∀ v ∈ vs, Admitted (spacedWords v.name.toList))
    (hnew : ∀ v ∈ vs, v.name ∉ c.names) (hdistinct : (vs.map (·.name)).Nodup) :
    Reads (declarationLines .inputs (vs.map (·.name))) ⟨c, none, described⟩
      ⟨{ c with inputs := c.inputs ++ vs.map fun v => ⟨v.name, []⟩ }, none, described⟩ := by
  have hadd := foldlM_addInput (vs.map fun v => ⟨v.name, []⟩) c (List.forall_mem_map.mpr hnew)
    (by rwa [List.map_map])
  rw [List.foldlM_map] at hadd
  refine .append (.cons (readsLine_opening (.inl rfl)) ?_) (.single (readsLine_endVar (.inl rfl)))
  rw [List.map_map]
  refine reads_declarations .inputs Variable.name hadd rfl fun v hv d d₁ _ hd => ⟨?_, ?_⟩
  · obtain ⟨-, rfl⟩ := Controller.addInput_eq_ok.mp hd
    rfl
  · exact readsLine_input hd (hnames v hv)

-- The block that declares outputs, for each name the one that is made of it.
theorem reads_declareOutputs {os : List (OutputVariable α)} {made : String → OutputVariable α}
    (hmade : ∀ name, declaredOutput c.config name = .ok (made name) ∧ (made name).name = name)
    (hnames : ∀ o ∈ os, Admitted (spacedWords o.name.toList))
    (hnew : ∀ o ∈ os, o.name ∉ c.names) (hdistinct : (os.map (·.name)).Nodup) :
    Reads (declarationLines .outputs (os.map (·.name))) ⟨c, none, described⟩
      ⟨{ c with outputs := c.outputs ++ os.map fun o => made o.name }, none, described⟩ := by
  have hname (o : OutputVariable α) : (made o.name).name = o.name := (hmade o.name).2
  have hadd := foldlM_addOutput (os.map fun o => made o.name) c
    (List.forall_mem_map.mpr fun o ho => by rw [hname]; exact hnew o ho)
    (by simpa only [List.map_map, Function.comp_def, hname] using hdistinct)
  rw [List.foldlM_map] at hadd
  refine .append (.cons (readsLine_opening (.inr (.inl rfl))) ?_)
    (.single (readsLine_endVar (.inr rfl)))
  rw [List.map_map]
  refine reads_declarations .outputs (fun o : OutputVariable α => o.name) hadd rfl
    fun o ho d d₁ hconfig hd => ⟨?_, ?_⟩
  · obtain ⟨-, rfl⟩ := Controller.addOutput_eq_ok.mp hd
    rfl
  · refine readsLine_output ?_ hd (hnames o ho)
    rw [hconfig]
    exact (hmade o.name).1

end Declarations

/-! ## Terms inside a block -/

-- Terms one below the other, if each of them is added to those before it.
theorem reads_terms (state : List (Term α) → Progress α) {ts : List (Term α)}
    (hline : ∀ t ∈ ts, ∀ before, ReadsLine (termLine t).toList (state before)
      (state (before ++ [t.reread]))) (before : List (Term α)) :
    Reads (ts.map termLine) (state before) (state (before ++ ts.map Term.reread)) := by
  induction ts generalizing before with
  | nil =>
    simp only [List.map_nil, List.append_nil]
    exact .nil _
  | cons t ts ih =>
    have hrest := ih (fun s hs => hline s (by simp [hs])) (before ++ [t.reread])
    rw [List.append_assoc, List.singleton_append] at hrest
    exact .cons (hline t (by simp) before) hrest

theorem judge_term [Scalar.PlainText α] {t : Term α} (h : t.Writable) (n : Nat) :
    (Line.ofRaw n (termLine t).toList).content.isEmpty = false ∧
      (Line.ofRaw n (termLine t).toList).keyword = "TERM" ∧
      (Line.ofRaw n (termLine t).toList).judge
        ((Line.ofRaw n (termLine t).toList).statement >>= readTerm) = .ok t.reread := by
  have hword : IsKeyword "TERM".toList := by decide
  have hne : termPieces t ≠ [] := by simp [termPieces]
  rw [toList_termLine h]
  obtain ⟨hcontent, hkeyword, hstatement⟩ := ofRaw_statement hword (pieces_termPieces h) hne n
  exact ⟨hcontent, hkeyword, judge_statement hstatement (readTerm_pieces h)⟩

/-! ## Inputs -/

section Inputs

variable {c : Controller α} {described : List String} {before after : List (Variable α)}

theorem readsLine_inputTerm [Scalar.PlainText α] {v : Variable α} {t : Term α} (h : t.Writable)
    (hbefore : v.name ∉ before.map (·.name)) :
    ReadsLine (termLine t).toList
      ⟨{ c with inputs := before ++ v :: after }, some ⟨.fuzzify, v.name⟩, described⟩
      ⟨{ c with inputs := before ++ v.addTerm t.reread :: after }, some ⟨.fuzzify, v.name⟩,
        described⟩ := by
  intro n
  obtain ⟨hcontent, hkeyword, hjudge⟩ := judge_term h n
  refine ⟨[], ?_⟩
  rw [readLine_fuzzify hcontent]
  unfold readFuzzify
  rw [hkeyword]
  refine bind_eq_ok.mpr ⟨t.reread, hjudge, ?_⟩
  rw [changeInput_append rfl hbefore]
  rfl

theorem readsLine_endFuzzify {name : String} : ReadsLine "END_FUZZIFY".toList
    ⟨c, some ⟨.fuzzify, name⟩, described⟩ ⟨c, none, described⟩ := by
  refine readsLine_keyword (by decide) fun line hcontent hkeyword => ?_
  rw [readLine_fuzzify hcontent]
  unfold readFuzzify
  rw [hkeyword]
  rfl

theorem readsLine_fuzzify {name : String} (hname : Admitted (spacedWords name.toList))
    (hnew : name ∉ described) (hdeclared : name ∈ c.inputs.map (·.name)) :
    ReadsLine ("FUZZIFY " ++ name).toList ⟨c, none, described⟩
      ⟨c, some ⟨.fuzzify, name⟩, name :: described⟩ := by
  have htext : ("FUZZIFY " ++ name).toList =
      Block.fuzzify.keyword.toList ++ ' ' :: name.toList := by
    rw [String.toList_append]
    rfl
  rw [htext]
  exact readsLine_description (.inl ⟨rfl, Controller.isSome_input?.mpr hdeclared⟩) hname hnew

-- The block that describes an input.
theorem reads_fuzzify [Scalar.PlainText α] (c : Controller α) {before : List (Variable α)}
    (after : List (Variable α)) {described : List String} {v : Variable α} (h : v.Writable)
    (hbefore : v.name ∉ before.map (·.name)) (hnew : v.name ∉ described) :
    Reads (fuzzifyLines v) ⟨{ c with inputs := before ++ ⟨v.name, []⟩ :: after }, none, described⟩
      ⟨{ c with inputs := before ++ v.reread :: after }, none, v.name :: described⟩ := by
  have hopen := readsLine_fuzzify (c := { c with inputs := before ++ ⟨v.name, []⟩ :: after })
    h.name hnew (by simp)
  have hterms := reads_terms (fun terms =>
    ⟨{ c with inputs := before ++ ⟨v.name, terms⟩ :: after }, some ⟨.fuzzify, v.name⟩,
      v.name :: described⟩) (fun t (ht : t ∈ v.terms) terms =>
        readsLine_inputTerm (v := ⟨v.name, terms⟩) (h.terms t ht) hbefore) []
  exact .append (.cons hopen hterms) (.single readsLine_endFuzzify)

-- Behind the description of one variable, the variables with other names are still to come.
theorem not_mem_described_cons {β : Type} {f : β → String} {xs : List β} {name : String}
    (hname : name ∉ xs.map f) (hnew : ∀ x ∈ xs, f x ∉ described) :
    ∀ x ∈ xs, f x ∉ name :: described := by
  intro x hx hmem
  rcases List.mem_cons.mp hmem with heq | hmem
  · exact hname (List.mem_map.mpr ⟨x, hx, heq⟩)
  · exact hnew x hx hmem

-- The blocks that describe the inputs.
theorem reads_inputs [Scalar.PlainText α] (c : Controller α) (before : List (Variable α))
    {vs : List (Variable α)} {described : List String} (h : ∀ v ∈ vs, v.Writable)
    (hdistinct : ((before ++ vs).map (·.name)).Nodup) (hnew : ∀ v ∈ vs, v.name ∉ described) :
    Reads (vs.flatMap fuzzifyLines)
      ⟨{ c with inputs := before ++ vs.map fun v => ⟨v.name, []⟩ }, none, described⟩
      ⟨{ c with inputs := before ++ vs.map Variable.reread }, none,
        (vs.map (·.name)).reverse ++ described⟩ := by
  -- on the variables; those before the present one are read in full already
  induction vs generalizing before described with
  | nil => exact .nil _
  | cons v vs ih =>
    obtain ⟨hv, hvs⟩ := List.forall_mem_cons.mp h
    obtain ⟨hvnew, hvsnew⟩ := List.forall_mem_cons.mp hnew
    rw [List.map_append, List.map_cons] at hdistinct
    obtain ⟨hhead, -⟩ := List.nodup_cons.mp (List.nodup_middle.mp hdistinct)
    rw [List.mem_append, not_or] at hhead
    have hfirst := reads_fuzzify c (vs.map fun v => ⟨v.name, []⟩) hv hhead.1 hvnew
    have hnames : ((before ++ [v.reread] ++ vs).map (·.name)).Nodup := by
      rwa [List.map_append, List.map_append, List.append_assoc]
    have hfresh := not_mem_described_cons hhead.2 hvsnew
    have hothers := ih (before ++ [v.reread]) hvs hnames hfresh
    rw [List.append_assoc, List.append_assoc, List.singleton_append, List.singleton_append]
      at hothers
    rw [List.flatMap_cons, List.map_cons, List.map_cons, List.map_cons, List.reverse_cons,
      List.append_assoc, List.singleton_append]
    exact hfirst.append hothers

end Inputs

end FuzzyInference.Fcl
