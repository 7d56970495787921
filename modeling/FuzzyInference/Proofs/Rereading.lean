import FuzzyInference.Proofs.Refusals

/-!
# What is read of a written text

A controller whose rules are valid is written unless one of its names is refused. What is written is
read again if and only if no bracket begins a comment, and the rules that are read are those that
were written if and only if they refer to the first terms of their names.  A condition by itself is
read as the same tree.
-/

namespace FuzzyInference

variable {α : Type}

namespace Fcl

/-! ## What cannot be written -/

theorem misconfigured_of_checkName {role : NameRole} {name : String} {f : Fault}
    (h : checkName role name = .error f) : ∃ cause, f = .misconfigured cause := by
  unfold checkName at h
  dsimp only at h
  split_ifs at h
  all_goals exact ⟨_, (Except.error.inj h).symm⟩

theorem misconfigured_of_checkVariable {v : Variable α} {f : Fault}
    (h : checkVariable v = .error f) : ∃ cause, f = .misconfigured cause := by
  rcases bind_eq_error.mp h with hname | ⟨_, -, hterms⟩
  · exact misconfigured_of_checkName hname
  · obtain ⟨t, -, ht⟩ := exists_of_forM_eq_error hterms
    exact misconfigured_of_checkName ht

-- A name that is refused is a mistake in the configuration.
theorem misconfigured_of_checkNames {c : Controller α} {f : Fault}
    (h : checkNames c = .error f) : ∃ cause, f = .misconfigured cause := by
  have hvariables (h : (c.inputs.forM checkVariable >>= fun _ =>
      c.outputs.forM fun o => checkVariable o.toVariable) = .error f) :
      ∃ cause, f = .misconfigured cause := by
    rcases bind_eq_error.mp h with hinputs | ⟨_, -, houtputs⟩
    · obtain ⟨v, -, hv⟩ := exists_of_forM_eq_error hinputs
      exact misconfigured_of_checkVariable hv
    · obtain ⟨o, -, ho⟩ := exists_of_forM_eq_error houtputs
      exact misconfigured_of_checkVariable ho
  unfold checkNames at h
  dsimp only at h
  split at h
  · rcases bind_eq_error.mp h with hname | ⟨_, -, h⟩
    · exact misconfigured_of_checkName hname
    · exact hvariables h
  · exact hvariables h

theorem exists_conditionText {c : Controller α} {condition : Condition}
    (h : ∀ leaf ∈ condition.leaves,
      ∃ v, c.input? leaf.name = some v ∧ 0 ≤ leaf.term ∧ leaf.term < v.terms.length) :
    ∃ text, conditionText c condition = .ok text := by
  induction condition with
  | is leaf =>
    obtain ⟨v, hv, hterm⟩ := h leaf (List.mem_singleton_self leaf)
    obtain ⟨t, ht⟩ := Variable.exists_term_iff.mpr hterm
    exact ⟨_, bind_eq_ok.mpr ⟨v, Controller.input_eq_ok.mpr hv, bind_eq_ok.mpr ⟨t, ht, rfl⟩⟩⟩
  | and l r ihl ihr =>
    obtain ⟨hl, hr⟩ := List.forall_mem_append.mp h
    obtain ⟨left, hleft⟩ := ihl hl
    obtain ⟨right, hright⟩ := ihr hr
    exact ⟨_, bind_eq_ok.mpr ⟨left, hleft, bind_eq_ok.mpr ⟨right, hright, rfl⟩⟩⟩
  | or l r ihl ihr =>
    obtain ⟨hl, hr⟩ := List.forall_mem_append.mp h
    obtain ⟨left, hleft⟩ := ihl hl
    obtain ⟨right, hright⟩ := ihr hr
    exact ⟨_, bind_eq_ok.mpr ⟨left, hleft, bind_eq_ok.mpr ⟨right, hright, rfl⟩⟩⟩

variable [Scalar α]

theorem exists_ruleLine {c : Controller α} {r : Rule α} (h : c.Valid r) (number : Nat) :
    ∃ line, ruleLine c number r = .ok line := by
  obtain ⟨condition, hcondition⟩ := exists_conditionText h.leaves
  obtain ⟨o, ho, hterm⟩ := h.conclusion
  obtain ⟨t, ht⟩ := Variable.exists_term_iff.mpr hterm
  have hconclusion : ∃ conclusion, conclusionText c r.conclusion = .ok conclusion :=
    ⟨_, bind_eq_ok.mpr ⟨o, Controller.output_eq_ok.mpr ho, bind_eq_ok.mpr ⟨t, ht, rfl⟩⟩⟩
  obtain ⟨conclusion, hconclusion⟩ := hconclusion
  exact ⟨_, bind_eq_ok.mpr ⟨condition, hcondition, bind_eq_ok.mpr ⟨conclusion, hconclusion, rfl⟩⟩⟩

theorem exists_ruleLines {c : Controller α} (h : ∀ r ∈ c.rules, c.Valid r) :
    ∃ lines, ruleLines c = .ok lines := by
  have hlines : ∃ rules,
      c.rules.zipIdx.mapM (fun item => ruleLine c (item.2 + 1) item.1) = .ok rules :=
    exists_mapM_eq_ok.mpr fun item hitem =>
      exists_ruleLine (h item.1 (List.fst_mem_of_mem_zipIdx hitem)) (item.2 + 1)
  obtain ⟨rules, hrules⟩ := hlines
  exact ⟨_, bind_eq_ok.mpr ⟨rules, hrules, rfl⟩⟩

end Fcl

namespace Controller

variable [Scalar α]

-- Only a name can keep a controller with valid rules from being written.
theorem toFcl_of_valid {c : Controller α} (h : ∀ r ∈ c.rules, c.Valid r) :
    (∃ cause, c.toFcl = .error (.misconfigured cause)) ∨ ∃ text, c.toFcl = .ok text := by
  obtain ⟨rules, hrules⟩ := Fcl.exists_ruleLines h
  cases hcheck : Fcl.checkNames c with
  | error f =>
    obtain ⟨cause, rfl⟩ := Fcl.misconfigured_of_checkNames hcheck
    refine .inl ⟨cause, ?_⟩
    unfold toFcl Fcl.controllerLines
    rw [hcheck]
    rfl
  | ok _ =>
    have hlines := Fcl.controllerLines_eq_ok.mpr ⟨hcheck, rules, hrules, rfl⟩
    exact .inr ⟨_, map_eq_ok.mpr ⟨_, hlines, rfl⟩⟩

variable [Scalar.PlainText α] {c : Controller α} {text : String}

/-- A written text is read if and only if the controller has points in every term, terms in every
output and no bracket that begins a comment. -/
theorem readFcl_answer_iff (htext : c.toFcl = .ok text) (hconfig : c.config.Sound)
    (hdistinct : c.NamesDistinct) (hprinted : c.Printed) :
    ((ofConfig c.config "").readFcl text.toList).answer = .ok () ↔
      c.Populated ∧ c.Uncommented := by
  constructor
  · exact Fcl.written_of_readFcl htext hconfig hdistinct hprinted
  · rintro ⟨hpopulated, hcomments⟩
    obtain ⟨c', notices, hread, -⟩ := Fcl.exists_readFcl_of_uncommented htext hconfig hdistinct
      hpopulated hprinted hcomments
    rw [hread]

/-- Every double is written as a number, so nothing is asked of the numbers of a controller. -/
theorem readFcl_doubles_iff {c : Controller Float} (htext : c.toFcl = .ok text)
    (hconfig : c.config.Sound) (hdistinct : c.NamesDistinct) :
    ((ofConfig c.config "").readFcl text.toList).answer = .ok () ↔ c.Populated ∧ c.Uncommented :=
  readFcl_answer_iff htext hconfig hdistinct (printed_doubles c)

/-- A controller with points in every term, terms in every output and valid rules, which any
sequence of operations has built, is refused for a name, or it has a text. The text is read under
the configuration if and only if no comment begins at a bracket of a written condition. -/
theorem toFcl_readable_iff (hc : c.Reachable) (hpopulated : c.Populated)
    (hvalid : ∀ r ∈ c.rules, c.Valid r) (hlegible : ∀ x ∈ c.numbers, Scalar.Legible x) :
    (∃ cause, c.toFcl = .error (.misconfigured cause)) ∨ ∃ text, c.toFcl = .ok text ∧
      (((ofConfig c.config "").readFcl text.toList).answer = .ok () ↔ c.Uncommented) := by
  obtain ⟨hconfig, hdistinct, -⟩ := hc.kept
  refine (toFcl_of_valid hvalid).imp_right fun ⟨text, htext⟩ => ⟨text, htext, ?_⟩
  rw [readFcl_answer_iff htext hconfig hdistinct (printed_of_legible hlegible)]
  exact and_iff_right hpopulated

end Controller

/-- The controller that operations build under the standard configuration. -/
def built (name : String) (operations : List (Operation Rat)) : Controller Rat :=
  operations.foldl (fun c operation => (operation.run c).state) (.ofConfig .standard name)

theorem reachable_built (name : String) (operations : List (Operation Rat)) :
    (built name operations).Reachable :=
  Controller.Reachable.foldl_run (.empty name ⟨⟨[], rfl⟩, 0, rfl⟩) operations

theorem heater_reachable : heater.Reachable := reachable_built "demo" heaterOperations

theorem heater_readsBack : ∀ x ∈ heater.numbers, Scalar.ReadsBack x := by decide +kernel

theorem heater_legible : heater.Legible := by
  have hproper : heater.Proper := by
    constructor
    all_goals decide +kernel
  exact hproper.legible heater_readsBack

theorem exists_toFcl_heater : ∃ text, heater.toFcl = .ok text :=
  exists_ok_of_toOption (by decide +kernel)

theorem Controller.toFcl_readable_iff_heater : ∃ text, heater.toFcl = .ok text ∧
    (((ofConfig heater.config "").readFcl text.toList).answer = .ok () ↔ heater.Uncommented) := by
  have hvalid : ∀ r ∈ heater.rules, heater.checkRule r = .ok () := by decide +kernel
  obtain ⟨written, hwritten⟩ := exists_toFcl_heater
  rcases toFcl_readable_iff heater_reachable heater_legible.populated
    (fun r hr => checkRule_eq_ok.mp (hvalid r hr))
    (fun x hx => (heater_readsBack x hx).legible) with ⟨cause, herror⟩ | htext
  · cases hwritten.symm.trans herror
  · exact htext

/-- A controller whose names have an asterisk at their ends. -/
def starred : Controller Rat := built "" [
  .addInput ⟨"*a", [.ofPoints "t*" [⟨0, 1⟩, ⟨10, 0⟩], .ofPoints "u" [⟨0, 0⟩, ⟨10, 1⟩]]⟩,
  .addOutput "y" [.ofPoints "hi" [⟨0, 0⟩, ⟨1, 1⟩]] (.integer 5) (.text "COA") (.real 0),
  .addRule (.and (.is ⟨"*a", 1, false⟩) (.or (.is ⟨"*a", 1, false⟩) (.is ⟨"*a", 0, false⟩)))
    ⟨"y", 0, 1⟩]

/-- Its condition is written with an asterisk on the inner side of each bracket, so that what stands
between them is a comment when it is read. -/
theorem starred_not_uncommented : ¬starred.Uncommented := by
  intro h
  have hrule : ⟨.and (.is ⟨"*a", 1, false⟩) (.or (.is ⟨"*a", 1, false⟩) (.is ⟨"*a", 0, false⟩)),
      ⟨"y", 0, 1⟩, 0⟩ ∈ starred.rules := by decide +kernel
  have hcomment : ¬Fcl.Uncommented "*a IS u AND (*a IS u OR *a IS t*)".toList := by decide +kernel
  exact hcomment (h _ hrule _ (by decide +kernel))

theorem Controller.toFcl_starred_refused : starred.Reachable ∧ starred.Populated ∧
    (∀ r ∈ starred.rules, starred.Valid r) ∧ ∃ text fault, starred.toFcl = .ok text ∧
      ((ofConfig starred.config "").readFcl text.toList).answer = .error fault := by
  have hreachable : starred.Reachable := reachable_built "" _
  have hpopulated : starred.Populated := by
    constructor
    all_goals decide +kernel
  have hvalid : ∀ r ∈ starred.rules, starred.checkRule r = .ok () := by decide +kernel
  have hlegible : ∀ x ∈ starred.numbers, Scalar.Legible x := by
    unfold Scalar.Legible
    decide +kernel
  obtain ⟨text, htext⟩ := exists_ok_of_toOption (x := starred.toFcl) (by decide +kernel)
  obtain ⟨hconfig, hdistinct, -⟩ := hreachable.kept
  have hanswer := readFcl_answer_iff htext hconfig hdistinct (printed_of_legible hlegible)
  refine ⟨hreachable, hpopulated, fun r hr => checkRule_eq_ok.mp (hvalid r hr), text, ?_⟩
  cases hread : ((ofConfig starred.config "").readFcl text.toList).answer with
  | error fault => exact ⟨fault, htext, rfl⟩
  | ok _ => exact absurd (hanswer.mp hread).2 starred_not_uncommented

namespace Controller

variable [Scalar α] [Scalar.PlainText α] [Scalar.SoleOne α] {c : Controller α} {text : String}

/-- The rules that are read where a text has been written are the written ones, in number, order,
variables, terms and weights, if and only if every term that a rule refers to is the first one of
its name. -/
theorem rules_readFcl_iff {c' : Controller α} {notices : List Notice} (hc : c.Reachable)
    (htext : c.toFcl = .ok text)
    (hread : (ofConfig c.config "").readFcl text.toList = ⟨c', notices, .ok ()⟩)
    (hweights : ∀ r ∈ c.rules, Scalar.isNaN r.conclusion.weight = false)
    (hlegible : ∀ x ∈ c.numbers, Scalar.Legible x)
    (hreads : ∀ x ∈ c.numbers, Scalar.isNaN x = false → Scalar.ReadsBack x) :
    c'.rules.map Rule.outline = c.rules.map Rule.outline ↔ ∀ r ∈ c.rules, r.NamesFirst c := by
  obtain ⟨hconfig, hdistinct, hrules⟩ := hc.kept
  have hprinted := printed_of_legible hlegible
  have hanswer : ((ofConfig c.config "").readFcl text.toList).answer = .ok () := by rw [hread]
  obtain ⟨hpopulated, hcomments⟩ :=
    (readFcl_answer_iff htext hconfig hdistinct hprinted).mp hanswer
  obtain ⟨d, more, hd, -, houtline⟩ := Fcl.exists_readFcl_of_uncommented htext hconfig hdistinct
    hpopulated hprinted hcomments
  obtain rfl : c' = d := congrArg Outcome.state (hread.symm.trans hd)
  have hsame : c'.rules.map Rule.outline = c.reread.rules.map Rule.outline :=
    congrArg Outline.rules houtline
  have hmem := c.mem_numbers.2.2.2
  rw [hsame]
  exact rules_reread_iff hrules fun r hr => hreads _ (hmem r hr) (hweights r hr)

end Controller

theorem Controller.rules_readFcl_iff_heater : ∃ text c' notices, heater.toFcl = .ok text ∧
    (ofConfig heater.config "").readFcl text.toList = ⟨c', notices, .ok ()⟩ ∧
      (c'.rules.map Rule.outline = heater.rules.map Rule.outline ↔
        ∀ r ∈ heater.rules, r.NamesFirst heater) := by
  obtain ⟨hconfig, hdistinct, -⟩ := heater_reachable.kept
  obtain ⟨text, htext⟩ := exists_toFcl_heater
  obtain ⟨c', notices, hread, -⟩ := Fcl.exists_readFcl_toFcl htext hconfig hdistinct heater_legible
  exact ⟨text, c', notices, htext, hread, rules_readFcl_iff heater_reachable htext hread
    (by decide +kernel) (fun x hx => (heater_readsBack x hx).legible)
    fun x hx _ => heater_readsBack x hx⟩

/-- A controller with two terms of one name. -/
def twins : Controller Rat := built "" [
  .addInput ⟨"x", [.ofPoints "t" [⟨0, 0⟩, ⟨10, 1⟩], .ofPoints "t" [⟨0, 1⟩, ⟨10, 0⟩]]⟩,
  .addOutput "y" [.ofPoints "u" [⟨0, 0⟩, ⟨1, 1⟩]] (.integer 5) (.text "COA") (.real 0),
  .addRule (.is ⟨"x", 1, false⟩) ⟨"y", 0, 1⟩]

theorem Controller.readFcl_twins_redirected : twins.Reachable ∧ ∃ text c' notices,
    twins.toFcl = .ok text ∧
      (ofConfig twins.config "").readFcl text.toList = ⟨c', notices, .ok ()⟩ ∧
        twins.rules.map Rule.outline = [(.is ⟨"x", 1, false⟩, ⟨"y", 0, 1⟩)] ∧
          c'.rules.map Rule.outline = [(.is ⟨"x", 0, false⟩, ⟨"y", 0, 1⟩)] := by
  have hreachable : twins.Reachable := reachable_built "" _
  have hreads : ∀ x ∈ twins.numbers, Scalar.ReadsBack x := by decide +kernel
  have hpopulated : twins.Populated := by
    constructor
    all_goals decide +kernel
  have hlegible : twins.Legible := hpopulated.legible
    (printed_of_legible fun x hx => (hreads x hx).legible) (by decide +kernel)
  obtain ⟨text, htext⟩ := exists_ok_of_toOption (x := twins.toFcl) (by decide +kernel)
  obtain ⟨hconfig, hdistinct, -⟩ := hreachable.kept
  obtain ⟨c', notices, hread, -, houtline⟩ :=
    Fcl.exists_readFcl_toFcl htext hconfig hdistinct hlegible
  have hrules : c'.rules.map Rule.outline = twins.reread.rules.map Rule.outline :=
    congrArg Outline.rules houtline
  refine ⟨hreachable, text, c', notices, htext, hread, by decide +kernel, ?_⟩
  rw [hrules]
  decide +kernel

/-! ## Conditions -/

/-- A comparison of an input with the first term of its name, both with names that are accepted. -/
def Comparison.Rereadable (c : Controller α) (leaf : Comparison) : Prop :=
  ∃ v t, c.input? leaf.name = some v ∧ v.term leaf.term = .ok t ∧
    (v.termIndex? t.name).map Nat.cast = some leaf.term ∧
    Fcl.checkName .ofVariable v.name = .ok () ∧ Fcl.checkName (.ofTerm v.name) t.name = .ok ()

namespace Comparison.Rereadable

variable {c : Controller α} {leaf : Comparison}

theorem named (h : leaf.Rereadable c) : leaf.Named c.inputs := by
  obtain ⟨v, t, hv, ht, -, hname, hterm⟩ := h
  intro w hw s hs
  obtain rfl : v = w := Option.some.inj (hv.symm.trans hw)
  obtain rfl : t = s := Except.ok.inj (ht.symm.trans hs)
  exact ⟨Fcl.admitted_of_checkName hname, Fcl.admitted_of_checkName hterm⟩

theorem firstIndex_eq (h : leaf.Rereadable c) :
    ∀ v ∈ c.inputs.find? (·.name == leaf.name), v.firstIndex leaf.term = leaf.term := by
  obtain ⟨v, t, hv, ht, hfirst, -⟩ := h
  intro w hw
  obtain rfl : v = w := Option.some.inj (hv.symm.trans hw)
  obtain ⟨i, hi, hterm⟩ := Option.map_eq_some_iff.mp hfirst
  exact (Variable.firstIndex_eq ht hi).trans hterm

theorem exists_term (h : leaf.Rereadable c) :
    ∃ v, c.input? leaf.name = some v ∧ 0 ≤ leaf.term ∧ leaf.term < v.terms.length := by
  obtain ⟨v, t, hv, ht, -⟩ := h
  exact ⟨v, hv, Variable.exists_term_iff.mp ⟨t, ht⟩⟩

end Comparison.Rereadable

/-- The tokens of a written condition are read as the very same tree. -/
theorem Fcl.readCondition_conditionText {c : Controller α} {condition : Condition}
    (h : ∀ leaf ∈ condition.leaves, leaf.Rereadable c) : ∃ text,
      conditionText c condition = .ok text ∧
        readCondition c.inputs (Token.ofText text.toList) = .ok condition := by
  obtain ⟨text, htext⟩ := exists_conditionText fun leaf hleaf => (h leaf hleaf).exists_term
  obtain ⟨tokens, ⟨pieces, hpieces, -, rfl⟩, hderives⟩ :=
    writes_of_conditionText htext fun leaf hleaf => (h leaf hleaf).named
  have hsame : condition.reread c.inputs = condition :=
    Condition.reread_eq_iff.mpr fun leaf hleaf => (h leaf hleaf).firstIndex_eq
  rw [hsame, ← ofText_spaced, ← hpieces] at hderives
  exact ⟨text, htext, readCondition_eq_ok_iff_derives.mpr hderives.disjunction⟩

/-- The inputs of a house. -/
def house : Controller Rat :=
  { Controller.ofConfig .standard "" with
    inputs := [
      ⟨"living room", [.ofPoints "too cold" [⟨10, 1⟩, ⟨18, 0⟩], .ofPoints "warm" [⟨18, 0⟩]]⟩,
      ⟨"cellar", [.ofPoints "dry" [⟨40, 1⟩, ⟨70, 0⟩]]⟩] }

/-- A condition with every kind of operand that is written in brackets, and some that are not. -/
def nested : Condition :=
  .or (.and (.or (.is ⟨"living room", 0, true⟩) (.is ⟨"cellar", 0, false⟩))
      (.and (.is ⟨"cellar", 0, true⟩) (.is ⟨"living room", 1, false⟩)))
    (.or (.is ⟨"living room", 0, false⟩)
      (.and (.is ⟨"cellar", 0, false⟩) (.is ⟨"cellar", 0, true⟩)))

theorem Fcl.readCondition_conditionText_nested : ∃ text,
    conditionText house nested = .ok text ∧
      readCondition house.inputs (Token.ofText text.toList) = .ok nested := by
  apply readCondition_conditionText
  have hcold (negated : Bool) : Comparison.Rereadable house ⟨"living room", 0, negated⟩ :=
    ⟨_, _, rfl, rfl, by decide +kernel +revert⟩
  have hwarm (negated : Bool) : Comparison.Rereadable house ⟨"living room", 1, negated⟩ :=
    ⟨_, _, rfl, rfl, by decide +kernel +revert⟩
  have hdry (negated : Bool) : Comparison.Rereadable house ⟨"cellar", 0, negated⟩ :=
    ⟨_, _, rfl, rfl, by decide +kernel +revert⟩
  simp only [nested, Condition.leaves, List.forall_mem_append, List.forall_mem_singleton]
  exact ⟨⟨⟨hcold true, hdry false⟩, hdry true, hwarm false⟩, hcold false, hdry false, hdry true⟩

end FuzzyInference
