import Mathlib
import FuzzyInference.Proofs.Batches
import FuzzyInference.Proofs.ReadSoFar
import FuzzyInference.Proofs.Readiness
import FuzzyInference.Proofs.StableSort
import FuzzyInference.Proofs.WrittenLines

/-!
# Texts that can be run

A text that is accepted, and that describes every output which it declares, makes a controller that
can be evaluated with any values for any of its inputs.
-/

namespace FuzzyInference

/-! ## Terms with degrees -/

theorem Term.Drawn.sorted {t : Term Rat} (h : t.Drawn) : Point.Sorted t.points := by
  obtain ⟨points, -, heq⟩ := h
  rw [heq]
  exact Point.sorted_sort points

/-- A term takes the degree of any rational just when it has points. -/
theorem Term.exists_fuzzify_iff {t : Term Rat} {division : Division} {x : Rat} :
    (∃ t', t.fuzzify division x = .ok t') ↔ t.points ≠ [] := by
  rw [fuzzify_division (fun p _ => Scalar.isNaN_rat p.x) (Scalar.isNaN_rat x)]
  constructor
  · rintro ⟨t', h⟩ hnil
    obtain ⟨dom, hdom, -⟩ := map_eq_ok.mp h
    unfold degree at hdom
    rw [hnil] at hdom
    cases hdom
  · intro hpoints
    obtain ⟨dom, hdom⟩ := exists_degree_total hpoints x
    exact ⟨_, map_eq_ok.mpr ⟨dom, hdom, rfl⟩⟩

/-! ## Controllers that can be evaluated -/

namespace Controller

/-- Everything that an evaluation needs is there. -/
structure Ready {α : Type} (c : Controller α) : Prop where
  valid : ∀ r ∈ c.rules, c.Valid r
  inputs : ∀ v ∈ c.inputs, ∀ t ∈ v.terms, t.points ≠ []
  outputs : ∀ o ∈ c.outputs, o.isDiscretized = true ∧ ∀ t ∈ o.terms, t.points ≠ []

variable {c : Controller Rat}

-- Every rational has an integer part, so nothing is left that could stop the inference.
theorem exists_evaluateRules_of_ready (hvalid : ∀ r ∈ c.rules, c.Valid r)
    (houtputs : ∀ o ∈ c.outputs, o.isDiscretized = true ∧ ∀ t ∈ o.terms, t.points ≠ []) :
    ∃ c', evaluateRules.Leads c c' () := by
  rcases Action.leads_or_fails evaluateRules c with ⟨c', _, h⟩ | ⟨f, h⟩
  · exact ⟨c', h⟩
  · cases obstacle_of_evaluateRules hvalid h with
    | notDiscretized ho hready =>
      rw [(houtputs _ ho).1] at hready
      cases hready
    | noPoints ho ht hpoints => exact absurd hpoints ((houtputs _ ho).2 _ ht)
    | noIndex hfloor => cases hfloor

/-- An input variable takes any reading just when each of its terms has points. -/
theorem takes_iff {name : String} {division : Division} {x : Rat} :
    c.Takes (name, ⟨division, x⟩) ↔
      ∃ v, c.input? name = some v ∧ ∀ t ∈ v.terms, t.points ≠ [] := by
  have hmeasure (v : Variable Rat) :
      (∃ w, v.measure ⟨division, x⟩ = .ok w) ↔ ∀ t ∈ v.terms, t.points ≠ [] := by
    unfold Variable.measure
    simp only [map_eq_ok, exists_comm (α := Variable Rat), exists_and_left, exists_eq', and_true,
      exists_mapM_eq_ok, Term.exists_fuzzify_iff]
  unfold Takes
  simp only [exists_and_left, hmeasure]

theorem Ready.takes (hc : c.Ready) {name : String} (hname : name ∈ c.inputs.map (·.name))
    (division : Division) (x : Rat) : c.Takes (name, ⟨division, x⟩) := by
  obtain ⟨v, hv⟩ := Option.isSome_iff_exists.mp (isSome_input?.mpr hname)
  exact takes_iff.mpr ⟨v, hv, hc.inputs v (List.mem_of_find?_eq_some hv)⟩

/-- A controller that is ready can be evaluated with any values for any of its inputs. -/
theorem Ready.exists_evaluate (hc : c.Ready) (division : Division) {values : List (String × Rat)}
    (hvalues : ∀ p ∈ values, p.1 ∈ c.inputs.map (·.name)) :
    ∃ c' crisp, (evaluate division values).Leads c c' crisp ∧
      crisp.map Prod.fst = c.outputs.map (·.name) := by
  have htakes : ∀ p ∈ readingsOf division values, c.Takes p := by
    intro p hp
    obtain ⟨q, hq, rfl⟩ := List.mem_map.mp hp
    exact hc.takes (hvalues q hq) division q.2
  obtain ⟨d, hread⟩ := exists_run_iff.mpr htakes
  obtain ⟨-, hrules, houtputs⟩ := outside_of_run hread
  -- the readings change nothing that the rules refer to
  have halike : c.Alike d := by
    rw [← hread.state_eq]
    exact Action.moves_forEach Alike.refl (fun _ _ _ h h' => h.trans h')
      (fun p _ => alike_fuzzify p.2.division p.1 p.2.value) c
  have hvalid : ∀ r ∈ d.rules, d.Valid r := by
    rw [hrules]
    exact fun r hr => (hc.valid r hr).of_covers (covers_of_outline halike.2)
  obtain ⟨c', hlast⟩ := exists_evaluateRules_of_ready hvalid (houtputs ▸ hc.outputs)
  have hrun : (evaluate division values).Leads c c' c'.crispValues :=
    leads_evaluate.mpr ⟨d, hread, hlast, rfl⟩
  exact ⟨c', _, hrun, map_fst_of_evaluate hrun⟩

end Controller

/-! ## Blocks that describe outputs -/

namespace Fcl

variable {α : Type} [Scalar α] {line : Line} {p p' : Progress α} {notices : List Notice}

theorem colon_mem_of_splitAt? {cs before after : List Char}
    (h : Text.splitAt? [':'] cs = some (before, after)) : ':' ∈ cs := by
  induction cs generalizing before after with
  | nil => simp [Text.splitAt?, Text.after?] at h
  | cons c cs ih =>
    rw [Text.splitAt?.eq_def] at h
    by_cases hc : ':' = c
    · exact hc ▸ List.mem_cons_self
    · simp only [Text.after?, if_neg hc] at h
      obtain ⟨⟨b, a⟩, hsplit, -⟩ := Option.map_eq_some_iff.mp h
      exact List.mem_cons_of_mem c (ih hsplit)

theorem colon_mem_of_declaredName {statement : List Char} {name : String}
    (h : declaredName statement = .ok name) : ':' ∈ statement := by
  unfold declaredName at h
  split at h
  · cases h
  · rename_i before after hsplit
    exact colon_mem_of_splitAt? hsplit

theorem subset_of_statement {statement : List Char} (h : line.statement = .ok statement) :
    ':' ∈ statement → ':' ∈ line.content := by
  unfold Line.statement at h
  split at h
  · rw [← Except.ok.inj h, Text.mem_trim (by decide)]
    exact fun h => List.dropLast_subset _ h
  · cases h

-- What stands behind the keyword of a line, apart from blank characters, is its subject.
theorem colon_mem_subject {word : String} (hkeyword : line.keyword = word)
    (hword : ':' ∉ word.toList) (h : ':' ∈ line.content) : ':' ∈ line.subject.toList := by
  have hleading : leadingWord line.content = word.toList := by
    rw [← hkeyword]
    exact String.toList_ofList.symm
  have hsplit := List.take_append_drop (leadingWord line.content).length line.content
  have hword := leadingWord_prefix line.content
  rw [← List.prefix_iff_eq_take.mp hword] at hsplit
  have hmem : ':' ∈ leadingWord line.content ++
      line.content.drop (leadingWord line.content).length := by rwa [hsplit]
  unfold Line.subject
  rw [String.toList_ofList, Text.mem_trim (by decide)]
  refine (List.mem_append.mp hmem).resolve_left ?_
  rwa [hleading]

/-- A line that begins like a block which describes an output is one, unless it declares a variable
with this word in its name. -/
theorem described_of_readLine (h : readLine line p = .ok (p', notices))
    (hkeyword : line.keyword = "DEFUZZIFY") (hsubject : ':' ∉ line.subject.toList) :
    line.subject ∈ p'.described := by
  have hdeclaration {block : Block} (h : readDeclaration line block p = .ok (p', notices)) :
      line.subject ∈ p'.described := by
    unfold readDeclaration at h
    rw [hkeyword, if_neg (by decide)] at h
    obtain ⟨name, hname, -⟩ := bind_eq_ok.mp h
    obtain ⟨statement, hstatement, hname⟩ := bind_eq_ok.mp (judge_eq_ok.mp hname)
    have hcolon := subset_of_statement hstatement (colon_mem_of_declaredName hname)
    exact absurd (colon_mem_subject hkeyword (by decide) hcolon) hsubject
  unfold readLine at h
  split at h
  · rename_i hempty
    have hnone : line.keyword = "" := by
      unfold Line.keyword
      rw [List.isEmpty_iff.mp hempty]
      rfl
    exact absurd (hkeyword.symm.trans hnone) (by decide)
  · split at h
    · unfold readOutside at h
      rw [hkeyword] at h
      change openDescription line .defuzzify p = _ at h
      unfold openDescription at h
      dsimp only at h
      split at h
      · cases h
      · split at h
        · obtain ⟨rfl, -⟩ := quiet_eq_ok.mp h
          exact List.mem_cons_self
        · cases h
    · exact hdeclaration h
    · exact hdeclaration h
    · unfold readFuzzify at h
      rw [hkeyword] at h
      cases h
    · unfold readDefuzzify at h
      rw [hkeyword] at h
      cases h
    · unfold readRuleLine at h
      rw [hkeyword] at h
      cases h

theorem described_of_readLines {lines : List Line} (h : (readLines lines).Leads p p' ())
    (hline : line ∈ lines) (hkeyword : line.keyword = "DEFUZZIFY")
    (hsubject : ':' ∉ line.subject.toList) : line.subject ∈ p'.described := by
  obtain ⟨q, _, hlines, hend⟩ := Action.leads_bind.mp h
  obtain ⟨rfl, -⟩ := Action.leads_ask.mp hend
  obtain ⟨before, after, rfl⟩ := List.append_of_mem hline
  obtain ⟨q₁, -, hrest⟩ := Action.leads_forEach_append.mp hlines
  obtain ⟨q₂, hread, hrest⟩ := Action.leads_forEach_cons.mp hrest
  obtain ⟨notices, hread⟩ := Action.leads_changeNoting.mp hread
  -- the lines behind this one keep what has been described
  have hkept : q₂.described ⊆ p'.described := by
    rw [← hrest.state_eq]
    exact Progress.moves_readEach (R := fun q q' : Progress α => q.described ⊆ q'.described)
      (fun _ => List.Subset.refl _) (fun _ _ _ h h' _ hx => h' (h hx))
      (fun _ _ hstep => hstep.described.1) after q₂
  exact hkept (described_of_readLine hread hkeyword hsubject)

theorem block_of_readLines {lines : List Line} (h : (readLines lines).Leads p p' ()) :
    p'.block = none := by
  obtain ⟨q, _, -, hend⟩ := Action.leads_bind.mp h
  obtain ⟨rfl, hend⟩ := Action.leads_ask.mp hend
  unfold checkEnd at hend
  split at hend
  · assumption
  · cases hend

-- Nothing but its settings is left of a controller without variables and rules.
theorem merged_ofConfig {config : Config α} {c : Controller α} (hconfig : c.config = config)
    (hrules : RulesDistinct c.rules) : merged (.ofConfig config "") c = c := by
  have hkept : c.rules.foldl withRule [] = c.rules :=
    foldl_withRule_of_distinct hrules
  obtain ⟨_, name, inputs, outputs, rules, operators⟩ := c
  unfold merged
  dsimp only [Controller.ofConfig, List.nil_append] at hconfig hkept ⊢
  rw [hkept, ← hconfig]
  congr
  split
  · rename_i hname
    exact hname.symm
  · rfl

/-- A text that is accepted by an empty controller makes what its lines say. -/
theorem leads_of_readFcl {config : Config α} {text : List Char} {c : Controller α}
    (h : (Controller.ofConfig config "").readFcl text = ⟨c, notices, .ok ()⟩) :
    ∃ p : Progress α, p.controller = c ∧ p.Kept config ∧ (readLines (linesOf text)).Leads
      (.start config (Controller.ofConfig config "").operators) p () := by
  have hkept := kept_readLines (linesOf text)
    (Progress.kept_start config (Controller.ofConfig config "").operators)
  by_cases hread : (readFor (.ofConfig config "") text).answer = .ok () ∧
      ∀ name ∈ (readFor (.ofConfig config "") text).state.controller.names,
        name ∉ (Controller.ofConfig config "").names
  · obtain ⟨_, hjoined⟩ := readFcl_of_disjoint hread.1 hread.2
    rw [hjoined, Outcome.mk.injEq] at h
    refine ⟨_, ?_, hkept, Action.leads_of_answer hread.1⟩
    rw [← h.1]
    exact (merged_ofConfig hkept.config hkept.distinct).symm
  · obtain ⟨_, f, hleft⟩ := readFcl_of_not_disjoint hread
    rw [hleft] at h
    cases h

/-- The block that describes an output is closed before the end of an accepted text, and then the
output has its grid. -/
theorem built_of_readLines {config : Config α} {lines : List Line} {operators : Operators}
    (hread : (readLines lines).Leads (.start config operators) p ()) {o : OutputVariable α}
    (ho : o ∈ p.controller.outputs)
    (hline : ∃ line ∈ lines, line.keyword = "DEFUZZIFY" ∧ line.subject = o.name) :
    o.terms ≠ [] ∧ o.isDiscretized = true := by
  obtain ⟨line, hline, hkeyword, hsubject⟩ := hline
  have hkept := kept_readLines lines (Progress.kept_start config operators)
  rw [hread.state_eq] at hkept
  obtain ⟨hcolon, hsettled⟩ := hkept.settled o ho
  rw [← hsubject] at hcolon hsettled
  have hdescribed := described_of_readLines hread hline hkeyword hcolon
  refine (hsettled hdescribed).resolve_left fun hopen => ?_
  rw [block_of_readLines hread] at hopen
  cases hopen

end Fcl

/-! ## Accepted texts -/

/-- An accepted text, in which a block describes every output that is declared, makes a controller
that is well formed and can be evaluated with any values for any of its inputs. -/
theorem Controller.runnable_of_readFcl {config : Config Rat} {text : List Char}
    {c : Controller Rat} {notices : List Notice}
    (h : (ofConfig config "").readFcl text = ⟨c, notices, .ok ()⟩)
    (hdescribed : ∀ o ∈ c.outputs, ∃ line ∈ Fcl.linesOf text,
      line.keyword = "DEFUZZIFY" ∧ line.subject = o.name) :
    c.NamesDistinct ∧
      (∀ v ∈ c.inputs, ∀ t ∈ v.terms, t.points ≠ [] ∧ Point.Sorted t.points) ∧
      (∀ o ∈ c.outputs, o.terms ≠ [] ∧ o.isDiscretized = true ∧
        ∀ t ∈ o.terms, t.points ≠ [] ∧ Point.Sorted t.points) ∧
      (∀ r ∈ c.rules, c.Valid r) ∧ RulesDistinct c.rules ∧
      ∀ (division : Division) (values : List (String × Rat)),
        (∀ p ∈ values, p.1 ∈ c.inputs.map (·.name)) →
        ∃ c' crisp, (evaluate division values).Leads c c' crisp ∧
          crisp.map Prod.fst = c.outputs.map (·.name) := by
  obtain ⟨p, rfl, hkept, hread⟩ := Fcl.leads_of_readFcl h
  have hbuilt (o) (ho : o ∈ p.controller.outputs) := Fcl.built_of_readLines hread ho
    (hdescribed o ho)
  have hpoints {t : Term Rat} (ht : t.Drawn) : t.points ≠ [] ∧ Point.Sorted t.points :=
    ⟨ht.points_ne_nil, ht.sorted⟩
  have hinputs (v) (hv : v ∈ p.controller.inputs) (t) (ht : t ∈ v.terms) :=
    hpoints (hkept.drawn.inputs v hv t ht)
  have houtputs (o) (ho : o ∈ p.controller.outputs) (t) (ht : t ∈ o.terms) :=
    hpoints (hkept.drawn.outputs o ho t ht)
  have hready : p.controller.Ready :=
    ⟨hkept.sound.rules, fun v hv t ht => (hinputs v hv t ht).1,
      fun o ho => ⟨(hbuilt o ho).2, fun t ht => (houtputs o ho t ht).1⟩⟩
  exact ⟨hkept.sound.names, hinputs, fun o ho => ⟨(hbuilt o ho).1, (hbuilt o ho).2, houtputs o ho⟩,
    hkept.sound.rules, hkept.distinct, fun division _ hvalues =>
      hready.exists_evaluate division hvalues⟩

/-- A lamp that shines when it is dark. -/
def lampText : List Char :=
  ["VAR_INPUT", "sky:R;", "END_VAR", "VAR_OUTPUT", "lamp:R;", "END_VAR",
    "FUZZIFY sky", "TERM dark := (0,1);", "END_FUZZIFY",
    "DEFUZZIFY lamp", "TERM on := (2,1);", "END_DEFUZZIFY",
    "RULEBLOCK", "RULE 1 : IF sky IS dark THEN lamp IS on;", "END_RULEBLOCK"].flatMap
    fun line => line.toList ++ ['\n']

/-- Grids of one point. -/
def lampConfig : Config Rat := { Config.standard with resolution := .integer 1 }

set_option maxRecDepth 100000 in
theorem Controller.runnable_of_readFcl_lampText :
    ∃ c notices, (ofConfig lampConfig "").readFcl lampText = ⟨c, notices, .ok ()⟩ ∧
      (∀ o ∈ c.outputs, ∃ line ∈ Fcl.linesOf lampText,
        line.keyword = "DEFUZZIFY" ∧ line.subject = o.name) ∧
      c.NamesDistinct ∧ (∀ r ∈ c.rules, c.Valid r) ∧ RulesDistinct c.rules ∧
      ∀ values : List (String × Rat), (∀ p ∈ values, p.1 ∈ c.inputs.map (·.name)) →
        ∃ c' crisp, (evaluate .total values).Leads c c' crisp ∧ crisp.map Prod.fst = ["lamp"] := by
  have hread : (fun o => (o.answer, o.state.outputs.map (·.name)))
      ((ofConfig lampConfig "").readFcl lampText) = (.ok (), ["lamp"]) := by cbv
  have hline : (Fcl.linesOf lampText).any
      (fun line => line.keyword == "DEFUZZIFY" && line.subject == "lamp") = true := by cbv
  generalize hrun : (ofConfig lampConfig "").readFcl lampText = run at hread
  obtain ⟨c, notices, answer⟩ := run
  obtain ⟨rfl, hnames⟩ := Prod.mk.inj hread
  have hdescribed : ∀ o ∈ c.outputs, ∃ line ∈ Fcl.linesOf lampText,
      line.keyword = "DEFUZZIFY" ∧ line.subject = o.name := by
    intro o ho
    have hname : o.name ∈ ["lamp"] := hnames ▸ List.mem_map_of_mem ho
    rw [List.mem_singleton.mp hname]
    simpa using hline
  obtain ⟨hdistinct, -, -, hvalid, hrules, hevaluate⟩ := runnable_of_readFcl hrun hdescribed
  refine ⟨c, notices, rfl, hdescribed, hdistinct, hvalid, hrules, fun values hvalues => ?_⟩
  obtain ⟨c', crisp, hcrisp, hkeys⟩ := hevaluate .total values hvalues
  exact ⟨c', crisp, hcrisp, hkeys.trans hnames⟩

end FuzzyInference
