import FuzzyInference.Controller
import FuzzyInference.Proofs.Outcomes
import Mathlib.Data.List.Nodup

/-!
# Names and references of a controller

The names of variables are distinct, and a rule is valid when the variables and terms that it refers
to are there.  A rule stays valid while variables are added and terms are appended.
-/

namespace FuzzyInference

variable {α : Type}

theorem Variable.term_eq_ok {v : Variable α} {index : Int} {t : Term α} :
    v.term index = .ok t ↔ 0 ≤ index ∧ v.terms[index.toNat]? = some t := by
  unfold Variable.term
  dsimp only
  split
  · rename_i h
    split <;> simp_all
  · rename_i h
    simp [h]

theorem Variable.exists_term_iff {v : Variable α} {index : Int} :
    (∃ t, v.term index = .ok t) ↔ 0 ≤ index ∧ index < v.terms.length := by
  simp only [Variable.term_eq_ok, exists_and_left]
  constructor
  · rintro ⟨h, t, ht⟩
    have := (List.getElem?_eq_some_iff.mp ht).1
    omega
  · rintro ⟨h, hlt⟩
    have : index.toNat < v.terms.length := by omega
    exact ⟨h, _, List.getElem?_eq_getElem this⟩

theorem Variable.misconfigured_of_term {v : Variable α} {index : Int} {f : Fault}
    (h : v.term index = .error f) : ∃ cause, f = .misconfigured cause := by
  unfold Variable.term at h
  split at h
  · split at h
    · cases h
    · exact ⟨_, (Except.error.inj h).symm⟩
  · exact ⟨_, (Except.error.inj h).symm⟩

-- A name that no item has.
theorem beq_of_not_mem_map {ι : Type} {key : ι → String} {items : List ι} {name : String}
    (h : name ∉ items.map key) : ∀ x ∈ items, (key x == name) = false := by
  intro x hx
  have : key x ≠ name := fun heq => h (List.mem_map.mpr ⟨x, hx, heq⟩)
  simpa using this

theorem find?_of_not_mem_map {ι : Type} {key : ι → String} {items : List ι} {name : String}
    (h : name ∉ items.map key) : items.find? (key · == name) = none := by
  rw [List.find?_eq_none]
  intro x hx
  rw [beq_of_not_mem_map h x hx]
  exact Bool.false_ne_true

-- The first item of a name is the only one, where names are distinct.
theorem find?_of_nodup {ι : Type} {key : ι → String} {items : List ι} (h : (items.map key).Nodup)
    {x : ι} (hx : x ∈ items) : items.find? (key · == key x) = some x := by
  obtain ⟨before, after, rfl⟩ := List.append_of_mem hx
  rw [List.map_append, List.map_cons, List.nodup_append] at h
  have hbefore : key x ∉ before.map key := fun hmem => h.2.2 _ hmem _ List.mem_cons_self rfl
  rw [List.find?_append, find?_of_not_mem_map hbefore, Option.none_or,
    List.find?_cons_of_pos (p := fun y => key y == key x) (beq_self_eq_true (key x))]

namespace Controller

theorem input_eq_ok {c : Controller α} {name : String} {v : Variable α} :
    c.input name = .ok v ↔ c.input? name = some v := by
  unfold input
  cases c.input? name <;> simp

theorem output_eq_ok {c : Controller α} {name : String} {o : OutputVariable α} :
    c.output name = .ok o ↔ c.output? name = some o := by
  unfold output
  cases c.output? name <;> simp

/-! ## Names -/

/-- The names of the inputs, then those of the outputs. -/
def names (c : Controller α) : List String := c.inputs.map (·.name) ++ c.outputs.map (·.name)

/-- No two variables have one name, be they inputs or outputs. -/
def NamesDistinct (c : Controller α) : Prop := c.names.Nodup

theorem isSome_input? {c : Controller α} {name : String} :
    (c.input? name).isSome = true ↔ name ∈ c.inputs.map (·.name) := by
  simp [input?, List.find?_isSome]

theorem isSome_output? {c : Controller α} {name : String} :
    (c.output? name).isSome = true ↔ name ∈ c.outputs.map (·.name) := by
  simp [output?, List.find?_isSome]

-- The action on a variable of a name is one on the first variable that has the name.
theorem onInput_append {β : Type} {c : Controller α} {v : Variable α}
    {before after : List (Variable α)} (hc : c.inputs = before ++ v :: after)
    (hbefore : v.name ∉ before.map (·.name)) (missing : Fault) (act : Action (Variable α) β) :
    onInput v.name missing act c =
      ⟨{ c with inputs := before ++ (act v).state :: after }, (act v).notices, (act v).answer⟩ := by
  unfold onInput Action.within
  rw [hc, Action.onFirst_append (beq_of_not_mem_map hbefore) (beq_self_eq_true v.name)]

theorem onOutput_append {β : Type} {c : Controller α} {o : OutputVariable α}
    {before after : List (OutputVariable α)} (hc : c.outputs = before ++ o :: after)
    (hbefore : o.name ∉ before.map (·.name)) (missing : Fault)
    (act : Action (OutputVariable α) β) :
    onOutput o.name missing act c =
      ⟨{ c with outputs := before ++ (act o).state :: after }, (act o).notices,
        (act o).answer⟩ := by
  unfold onOutput Action.within
  rw [hc, Action.onFirst_append (beq_of_not_mem_map hbefore) (beq_self_eq_true o.name)]

theorem output?_append {c : Controller α} {o : OutputVariable α}
    {before after : List (OutputVariable α)} (hc : c.outputs = before ++ o :: after)
    (hbefore : o.name ∉ before.map (·.name)) : c.output? o.name = some o := by
  unfold output?
  rw [hc, List.find?_append, find?_of_not_mem_map hbefore, Option.none_or,
    List.find?_cons_of_pos (p := fun w : OutputVariable α => w.name == o.name)
      (beq_self_eq_true o.name)]

theorem declares_iff {c : Controller α} {name : String} :
    c.declares name = true ↔ name ∈ c.names := by
  unfold declares names
  rw [Bool.or_eq_true, isSome_input?, isSome_output?, List.mem_append]

theorem checkNew_eq_ok {c : Controller α} {name : String} :
    c.checkNew name = .ok () ↔ name ∉ c.names := by
  rw [← declares_iff]
  unfold checkNew
  cases c.declares name <;> simp

theorem addInput_eq_ok {c c' : Controller α} {v : Variable α} :
    c.addInput v = .ok c' ↔ v.name ∉ c.names ∧ c' = { c with inputs := c.inputs ++ [v] } := by
  unfold addInput
  rw [map_eq_ok]
  constructor
  · rintro ⟨_, h, rfl⟩
    exact ⟨checkNew_eq_ok.mp h, rfl⟩
  · rintro ⟨h, rfl⟩
    exact ⟨(), checkNew_eq_ok.mpr h, rfl⟩

theorem addOutput_eq_ok {c c' : Controller α} {o : OutputVariable α} :
    c.addOutput o = .ok c' ↔ o.name ∉ c.names ∧ c' = { c with outputs := c.outputs ++ [o] } := by
  unfold addOutput
  rw [map_eq_ok]
  constructor
  · rintro ⟨_, h, rfl⟩
    exact ⟨checkNew_eq_ok.mp h, rfl⟩
  · rintro ⟨h, rfl⟩
    exact ⟨(), checkNew_eq_ok.mpr h, rfl⟩

theorem NamesDistinct.addInput {c c' : Controller α} {v : Variable α} (hc : c.NamesDistinct)
    (h : c.addInput v = .ok c') : c'.NamesDistinct := by
  obtain ⟨hnew, rfl⟩ := addInput_eq_ok.mp h
  unfold NamesDistinct names at hc ⊢
  rw [List.map_append, List.append_assoc, List.map_singleton, List.singleton_append]
  rw [List.nodup_middle]
  exact List.nodup_cons.mpr ⟨hnew, hc⟩

theorem NamesDistinct.addOutput {c c' : Controller α} {o : OutputVariable α} (hc : c.NamesDistinct)
    (h : c.addOutput o = .ok c') : c'.NamesDistinct := by
  obtain ⟨hnew, rfl⟩ := addOutput_eq_ok.mp h
  unfold NamesDistinct names at hc ⊢
  rw [List.map_append, ← List.append_assoc, List.map_singleton]
  rw [List.nodup_middle, List.append_nil]
  exact List.nodup_cons.mpr ⟨hnew, hc⟩

/-! ## References -/

/-- Everything that a rule refers to is there. -/
structure Valid (c : Controller α) (r : Rule α) : Prop where
  leaves : ∀ leaf ∈ r.condition.leaves,
    ∃ v, c.input? leaf.name = some v ∧ 0 ≤ leaf.term ∧ leaf.term < v.terms.length
  conclusion : ∃ o, c.output? r.conclusion.name = some o ∧
    0 ≤ r.conclusion.term ∧ r.conclusion.term < o.terms.length

theorem checkComparison_eq_ok {c : Controller α} {leaf : Comparison} :
    c.checkComparison leaf = .ok () ↔
      ∃ v, c.input? leaf.name = some v ∧ 0 ≤ leaf.term ∧ leaf.term < v.terms.length := by
  unfold checkComparison
  cases c.input? leaf.name with
  | none => simp
  | some v =>
    show (v.term leaf.term).map (fun _ => ()) = .ok () ↔ _
    rw [map_eq_ok]
    simp [Variable.exists_term_iff]

theorem checkConclusion_eq_ok {c : Controller α} {conclusion : Conclusion α} :
    c.checkConclusion conclusion = .ok () ↔
      ∃ o, c.output? conclusion.name = some o ∧
        0 ≤ conclusion.term ∧ conclusion.term < o.terms.length := by
  unfold checkConclusion
  cases c.output? conclusion.name with
  | none => simp
  | some o =>
    show (o.toVariable.term conclusion.term).map (fun _ => ()) = .ok () ↔ _
    rw [map_eq_ok]
    simp [Variable.exists_term_iff]

theorem checkRule_eq_ok {c : Controller α} {r : Rule α} :
    c.checkRule r = .ok () ↔ c.Valid r := by
  unfold checkRule
  rw [bind_eq_ok]
  constructor
  · rintro ⟨_, hleaves, hconclusion⟩
    exact ⟨fun leaf hl => checkComparison_eq_ok.mp (forM_eq_ok.mp hleaves leaf hl),
      checkConclusion_eq_ok.mp hconclusion⟩
  · rintro ⟨hleaves, hconclusion⟩
    exact ⟨(), forM_eq_ok.mpr fun leaf hl => checkComparison_eq_ok.mpr (hleaves leaf hl),
      checkConclusion_eq_ok.mpr hconclusion⟩

/-- Every variable of `c` that is found by its name is found in `c'`, with no fewer terms. -/
structure Covers (c' c : Controller α) : Prop where
  inputs : ∀ name v, c.input? name = some v →
    ∃ v', c'.input? name = some v' ∧ v.terms.length ≤ v'.terms.length
  outputs : ∀ name o, c.output? name = some o →
    ∃ o', c'.output? name = some o' ∧ o.terms.length ≤ o'.terms.length

-- Variables are found whatever the rules are.
theorem covers_rules (c : Controller α) (rules : List (Rule α)) :
    ({ c with rules } : Controller α).Covers c :=
  ⟨fun _ v h => ⟨v, h, Nat.le_refl _⟩, fun _ o h => ⟨o, h, Nat.le_refl _⟩⟩

theorem Valid.of_covers {c c' : Controller α} {r : Rule α} (h : c.Valid r) (hc : Covers c' c) :
    c'.Valid r := by
  constructor
  · intro leaf hl
    obtain ⟨v, hv, hlow, hhigh⟩ := h.leaves leaf hl
    obtain ⟨v', hv', hle⟩ := hc.inputs _ v hv
    exact ⟨v', hv', hlow, by omega⟩
  · obtain ⟨o, ho, hlow, hhigh⟩ := h.conclusion
    obtain ⟨o', ho', hle⟩ := hc.outputs _ o ho
    exact ⟨o', ho', hlow, by omega⟩

theorem covers_addInput {c c' : Controller α} {v : Variable α} (h : c.addInput v = .ok c') :
    Covers c' c := by
  obtain ⟨-, rfl⟩ := addInput_eq_ok.mp h
  refine ⟨fun name w hw => ⟨w, ?_, Nat.le_refl _⟩, fun name o ho => ⟨o, ho, Nat.le_refl _⟩⟩
  simp only [input?] at hw ⊢
  rw [List.find?_append, hw, Option.some_or]

theorem covers_addOutput {c c' : Controller α} {o : OutputVariable α}
    (h : c.addOutput o = .ok c') : Covers c' c := by
  obtain ⟨-, rfl⟩ := addOutput_eq_ok.mp h
  refine ⟨fun name v hv => ⟨v, hv, Nat.le_refl _⟩, fun name w hw => ⟨w, ?_, Nat.le_refl _⟩⟩
  simp only [output?] at hw ⊢
  rw [List.find?_append, hw, Option.some_or]

/-! ## Rules that are set together -/

/-- The checks come before the one change, so setting rules together is a change that is made as a
whole or not at all. -/
theorem replaceRules_eq [Scalar α] (rules : List (Rule α)) :
    replaceRules rules = Action.change (setRules rules) := by
  funext c
  have hchecks := Action.forEach_ask rules (fun r (c : Controller α) => c.checkRule r) c
  unfold replaceRules
  cases hcheck : rules.forM c.checkRule with
  | error f =>
    have hset : c.setRules rules = .error f := by
      unfold setRules
      rw [hcheck]
      rfl
    rw [hcheck] at hchecks
    exact (Action.bind_of_error hchecks _).trans (Action.change_of_error hset).symm
  | ok u =>
    have hset : c.setRules rules = .ok { c with rules := firstOfEach Rule.equivalent rules } := by
      unfold setRules
      rw [hcheck]
      rfl
    rw [hcheck] at hchecks
    exact (Action.bind_of_quiet hchecks _).trans (Action.change_of_ok hset).symm

theorem moves_replaceRules [Scalar α] {R : Controller α → Controller α → Prop}
    {rules : List (Rule α)} (hrefl : ∀ c, R c c)
    (h : ∀ c, (∀ r ∈ rules, c.checkRule r = .ok ()) →
      R c { c with rules := firstOfEach Rule.equivalent rules }) :
    (replaceRules rules).Moves R := by
  rw [replaceRules_eq]
  refine Action.moves_change hrefl fun c c' hset => ?_
  obtain ⟨_, hchecked, rfl⟩ := map_eq_ok.mp hset
  exact h c (forM_eq_ok.mp hchecked)

end Controller

end FuzzyInference
