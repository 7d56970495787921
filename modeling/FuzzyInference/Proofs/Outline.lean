import FuzzyInference.Proofs.Evaluation
import FuzzyInference.Proofs.Grids

/-!
# Outlines

What a controller says, without the degrees, samples, grids, levels and crisp values that inference
leaves in it.  Building grids and evaluating change no outline.
-/

namespace FuzzyInference

open List (Forall₂)

variable {α : Type}

/-- A term without its degree and its samples. -/
def Term.outline (t : Term α) : String × List (Point α) := (t.name, t.points)

/-- A variable with the outlines of its terms. -/
def Variable.outline (v : Variable α) : String × List (String × List (Point α)) :=
  (v.name, v.terms.map Term.outline)

/-- An output variable without its resolution, its grid and its crisp value. -/
def OutputVariable.outline (o : OutputVariable α) :
    (String × List (String × List (Point α))) × Defuzzification × α :=
  (o.toVariable.outline, o.method, o.defaultValue)

/-- A rule without its level. -/
def Rule.outline (r : Rule α) : Condition × Conclusion α := (r.condition, r.conclusion)

/-- The outline of a controller: its name, its variables, its operators and its rules. -/
structure Outline (α : Type) where
  name : String
  inputs : List (String × List (String × List (Point α)))
  outputs : List ((String × List (String × List (Point α))) × Defuzzification × α)
  operators : Operators
  rules : List (Condition × Conclusion α)

/-- What a controller says. -/
def Controller.outline (c : Controller α) : Outline α where
  name := c.name
  inputs := c.inputs.map Variable.outline
  outputs := c.outputs.map OutputVariable.outline
  operators := c.operators
  rules := c.rules.map Rule.outline

theorem Variable.names_of_outline (v : Variable α) :
    v.outline.2.map Prod.fst = v.terms.map Term.name := by
  unfold Variable.outline
  rw [List.map_map]
  rfl

theorem Variable.termNames_of_outline {v v' : Variable α} (h : v'.outline = v.outline) :
    v'.termNames = v.termNames := by
  unfold termNames
  rw [← names_of_outline, ← names_of_outline, h]

theorem Variable.length_terms_of_outline {v v' : Variable α} (h : v'.outline = v.outline) :
    v'.terms.length = v.terms.length := by
  have := congrArg (fun p => p.2.length) h
  simpa [Variable.outline] using this

/-! ## Actions that change no outline -/

/-- The variables have one outline. -/
def Variable.Alike (v v' : Variable α) : Prop := v'.outline = v.outline

/-- The output variables have one outline. -/
def OutputVariable.Alike (o o' : OutputVariable α) : Prop := o'.outline = o.outline

/-- The controllers have one configuration and one outline. -/
def Controller.Alike (c c' : Controller α) : Prop := c'.config = c.config ∧ c'.outline = c.outline

theorem Variable.Alike.refl (v : Variable α) : v.Alike v := rfl

theorem OutputVariable.Alike.refl (o : OutputVariable α) : o.Alike o := rfl

theorem Controller.Alike.refl (c : Controller α) : c.Alike c := ⟨rfl, rfl⟩

theorem Controller.Alike.trans {c d e : Controller α} (h : c.Alike d) (h' : d.Alike e) :
    c.Alike e :=
  ⟨h'.1.trans h.1, h'.2.trans h.2⟩

theorem Controller.alike_inputs {inputs : List (Variable α)} {c : Controller α}
    (h : Forall₂ Variable.Alike c.inputs inputs) : c.Alike { c with inputs } := by
  refine ⟨rfl, ?_⟩
  unfold Controller.outline
  rw [Action.map_eq_of_forall₂ (fun _ _ hv => hv) h]

theorem Controller.alike_outputs {outputs : List (OutputVariable α)} {c : Controller α}
    (h : Forall₂ OutputVariable.Alike c.outputs outputs) : c.Alike { c with outputs } := by
  refine ⟨rfl, ?_⟩
  unfold Controller.outline
  rw [Action.map_eq_of_forall₂ (fun _ _ ho => ho) h]

theorem Controller.alike_onEach_outputs {act : Action (OutputVariable α) Unit}
    (h : act.Moves OutputVariable.Alike) :
    (Action.within Controller.outputs (fun outputs c => { c with outputs })
      (Action.onEach act)).Moves Controller.Alike :=
  Action.moves_within (Action.moves_onEach OutputVariable.Alike.refl h)
    fun _ _ h => Controller.alike_outputs h

variable [Scalar α]

theorem Term.outline_sampleOn {t t' : Term α} {grid : List α} (h : t.sampleOn grid = .ok t') :
    t'.outline = t.outline := by
  obtain ⟨samples, -, rfl⟩ := Term.sampleOn_eq_ok.mp h
  rfl

theorem OutputVariable.outline_discretize {o o' : OutputVariable α} (h : o.discretize = .ok o') :
    o'.outline = o.outline := by
  obtain ⟨-, domains, terms, -, hterms, rfl⟩ := OutputVariable.discretize_eq_ok.mp h
  have hsame : terms.map Term.outline = o.terms.map Term.outline :=
    Action.map_eq_of_forall₂ (fun _ _ ht => Term.outline_sampleOn ht) (mapM_eq_ok.mp hterms)
  unfold OutputVariable.outline Variable.outline
  rw [hsame]

/-- Fuzzifying a variable keeps its name, and whatever of its terms does not depend on degrees. -/
theorem Variable.moves_fuzzify {κ : Type} {g : Term α → κ} (hg : ∀ t dom, g { t with dom } = g t)
    (division : Division) (x : α) : (fuzzify division x).Moves fun v v' =>
      v'.name = v.name ∧ v'.terms.map g = v.terms.map g := by
  have hterm : (Action.change (Term.fuzzify · division x)).Moves fun t t' => g t' = g t :=
    Action.moves_change_map (R := fun t t' => g t' = g t) (fun _ => rfl) hg
  exact Action.moves_within (Action.moves_onEach_map hterm) fun _ _ h => ⟨rfl, h⟩

theorem Variable.alike_fuzzify (division : Division) (x : α) :
    (Variable.fuzzify division x).Moves Variable.Alike :=
  (moves_fuzzify (g := Term.outline) (fun _ _ => rfl) division x).mono
    fun _ _ h => Prod.ext h.1 h.2

theorem OutputVariable.alike_prepare {o o' : OutputVariable α}
    (h : Controller.prepare o = .ok o') : o.Alike o' := by
  obtain ⟨-, grid, -, rfl⟩ := Controller.prepare_eq_ok.mp h
  rfl

theorem OutputVariable.alike_accumulate {operators : Operators} {r : Rule α}
    {o o' : OutputVariable α} (h : r.accumulate operators o = .ok o') : o.Alike o' := by
  obtain ⟨first, last, t, grid, -, -, -, -, rfl⟩ := Rule.accumulate_eq_ok.mp h
  rfl

-- Turning the accumulated set into a number changes the crisp value at most.
theorem OutputVariable.moves_defuzzify {R : OutputVariable α → OutputVariable α → Prop}
    (h : ∀ o crisp, R o { o with crisp }) :
    (do let _ ← OutputVariable.defuzzify : Action (OutputVariable α) Unit).Moves R := by
  intro o
  rw [Action.bind_eq]
  unfold Action.andThen OutputVariable.defuzzify
  cases o.grid? with
  | error f => exact h o o.crisp
  | ok grid => exact h o _

section Rules

variable {κ κ' : Type} {operators : Operators} {inputs : List (Variable α)} {g : Rule α → κ}
  {k : OutputVariable α → κ'}

/-- Inferring a rule keeps whatever activating it keeps of the rule, and whatever accumulating it
keeps of the outputs. -/
theorem Rule.moves_infer
    (hg : ∀ r r', r.activate inputs operators.norm = .ok r' → g r' = g r)
    (hk : ∀ (r : Rule α) o o', r.accumulate operators o = .ok o' → k o' = k o) :
    (infer operators inputs).Moves fun p q => g q.1 = g p.1 ∧ q.2.map k = p.2.map k := by
  have htrans (p q s : Rule α × List (OutputVariable α))
      (h : g q.1 = g p.1 ∧ q.2.map k = p.2.map k) (h' : g s.1 = g q.1 ∧ s.2.map k = q.2.map k) :
      g s.1 = g p.1 ∧ s.2.map k = p.2.map k := ⟨h'.1.trans h.1, h'.2.trans h.2⟩
  refine Action.moves_bind htrans ?_ fun _ => Action.moves_bind htrans (fun _ => ⟨rfl, rfl⟩)
    fun s => ?_
  · exact Action.moves_within (Action.moves_change_key hg) fun _ _ h => ⟨h, rfl⟩
  · exact Action.moves_within (Action.moves_onFirst_map (Action.moves_change_key (hk s.1)))
      fun _ _ h => ⟨rfl, h⟩

theorem Rule.moves_sweep_infer
    (hg : ∀ r r', r.activate inputs operators.norm = .ok r' → g r' = g r)
    (hk : ∀ (r : Rule α) o o', r.accumulate operators o = .ok o' → k o' = k o) :
    (Action.sweep (infer operators inputs)).Moves fun p q =>
      q.1.map g = p.1.map g ∧ q.2.map k = p.2.map k := by
  intro p
  have hsweep := Action.moves_sweep (R := fun r r' : Rule α => g r' = g r) (fun _ => rfl)
    (S := fun os os' : List (OutputVariable α) => os'.map k = os.map k) (fun _ => rfl)
    (fun _ _ _ h h' => h'.trans h) (moves_infer hg hk) p
  exact ⟨Action.map_eq_of_forall₂ (fun _ _ hr => hr) hsweep.1, hsweep.2⟩

end Rules

theorem Rule.outline_activate {inputs : List (Variable α)} {pair : NormPair} {r r' : Rule α}
    (h : r.activate inputs pair = .ok r') : r'.outline = r.outline := by
  obtain ⟨level, -, rfl⟩ := map_eq_ok.mp h
  rfl

namespace Controller

theorem alike_fuzzify (division : Division) (name : String) (x : α) :
    (fuzzify division name x).Moves Alike :=
  Action.moves_within (Action.moves_onFirst Variable.Alike.refl (Variable.alike_fuzzify division x))
    fun _ _ h => alike_inputs h

theorem alike_discretize : (discretize (α := α)).Moves Alike :=
  alike_onEach_outputs (OutputVariable.moves_buildGrid OutputVariable.Alike.refl
    fun _ _ h => OutputVariable.outline_discretize h)

theorem alike_inferRules : (inferRules (α := α)).Moves Alike := by
  intro c
  have h : (Action.sweep (Rule.infer c.operators c.inputs)).Moves fun p q =>
      q.1.map Rule.outline = p.1.map Rule.outline ∧
        q.2.map OutputVariable.outline = p.2.map OutputVariable.outline :=
    Rule.moves_sweep_infer (fun _ _ => Rule.outline_activate) fun _ _ _ =>
      OutputVariable.alike_accumulate
  obtain ⟨hrules, houtputs⟩ := h (c.rules, c.outputs)
  refine ⟨rfl, ?_⟩
  unfold inferRules outline
  dsimp only
  rw [houtputs, hrules]

theorem alike_evaluateRules : (evaluateRules (α := α)).Moves Alike := by
  refine Action.moves_bind (fun _ _ _ h h' => h.trans h') ?_ fun _ =>
    Action.moves_bind (R := Alike) (fun _ _ _ h h' => h.trans h') alike_inferRules fun _ => ?_
  · exact alike_onEach_outputs (Action.moves_change OutputVariable.Alike.refl
      fun _ _ => OutputVariable.alike_prepare)
  · exact alike_onEach_outputs (OutputVariable.moves_defuzzify fun _ _ => rfl)

theorem moves_evaluate {R : Controller α → Controller α → Prop} (hrefl : ∀ c, R c c)
    (htrans : ∀ c d e, R c d → R d e → R c e) {division : Division}
    (hfuzzify : ∀ name x, (fuzzify division name x).Moves R)
    (hrules : (evaluateRules (α := α)).Moves R) (values : List (String × α)) :
    (evaluate division values).Moves R := by
  refine Action.moves_bind htrans ?_ fun _ => Action.moves_bind htrans hrules fun _ =>
    Action.moves_ask hrefl _
  exact Action.moves_forEach hrefl htrans fun value _ => hfuzzify value.1 value.2

-- Evaluating leaves everything that a controller says as it was, whether it succeeds or not.
theorem alike_evaluate (division : Division) (values : List (String × α)) :
    (evaluate division values).Moves Alike :=
  moves_evaluate Alike.refl (fun _ _ _ => Alike.trans) (alike_fuzzify division)
    alike_evaluateRules values

end Controller

end FuzzyInference
