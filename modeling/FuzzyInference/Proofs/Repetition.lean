import FuzzyInference.Proofs.ClosedForm
import FuzzyInference.Proofs.RankedOutputs
import FuzzyInference.Proofs.SignedZeros

/-!
# Rules that are given again

Under the maximum a rule that is given again changes nothing, wherever it is given.  Equivalent
rules conclude alike, so it is safe to keep one rule of each class.
-/

namespace FuzzyInference

open Scalar
open Scalar.Ranked (rank)
open List (Forall₂)
open OutputVariable (ranked)

variable {α : Type} [Scalar α] [Regular α]

/-! ## Rules -/

/-- Equivalent rules whose conditions have a strength conclude alike. -/
theorem RankedOutput.infer_congr {operators : Operators} {inputs : List (Variable α)}
    {r r' : Rule α} (h : r.equivalent r' = true)
    (hstrength : ∃ a, r.condition.strength inputs operators.norm = .ok a) :
    infer operators inputs r = infer operators inputs r' := by
  simp only [Rule.equivalent, Bool.and_eq_true, beq_iff_eq (α := String), beq_iff_eq (α := Int)]
    at h
  obtain ⟨⟨⟨hcondition, hname⟩, hterm⟩, hweight⟩ := h
  obtain ⟨a, ha⟩ := hstrength
  have hsame := Condition.sameStrength_of_equivalent inputs operators.norm hcondition
  rw [ha] at hsame
  generalize hb : r'.condition.strength inputs operators.norm = strength at hsame
  cases hsame with
  | ok hab =>
    rename_i b
    have hconclude : conclude operators { r with level := a * r.conclusion.weight } =
        conclude operators { r' with level := b * r'.conclusion.weight } :=
      conclude_congr hname hterm
        (Regular.rank_mul (same_iff.mp hab) (same_iff.mp (.inl hweight)))
    funext vs
    unfold infer Rule.activate
    rw [ha, hb]
    exact congrFun hconclude vs

/-! ## Evaluations -/

namespace Controller

variable {c d : Controller α} {rules : List (Rule α)}

theorem mapState_andThen {σ τ β γ : Type} {f : σ → τ} {act act' : Action σ β}
    {next next' : β → Action σ γ} {s s' : σ}
    (hact : (act s).mapState f = (act' s').mapState f)
    (hnext : ∀ b, ((next b) (act s).state).mapState f = ((next' b) (act' s').state).mapState f) :
    ((act.andThen next) s).mapState f = ((act'.andThen next') s').mapState f := by
  unfold Action.andThen
  generalize act s = o at hact hnext
  generalize act' s' = o' at hact hnext
  obtain ⟨t, notices, answer⟩ := o
  obtain ⟨t', notices', answer'⟩ := o'
  obtain ⟨hstate, rfl, rfl⟩ := Outcome.mk.inj hact
  cases answer with
  | error f => exact congrArg (Outcome.mk · _ _) hstate
  | ok b =>
    obtain ⟨hstate, hnotices, hanswer⟩ := Outcome.mk.inj (hnext b)
    exact Outcome.mk.injEq .. |>.mpr ⟨hstate, congrArg (notices ++ ·) hnotices, hanswer⟩

theorem mapState_inferRules (hmaximum : c.operators.accumulation = .maximum) :
    (inferRules c).mapState (·.outputs.map ranked) =
      Action.forEach c.rules
        (fun r => Action.change (RankedOutput.infer c.operators c.inputs r))
        (c.outputs.map ranked) :=
  (Rule.ranked_sweep_infer hmaximum c.inputs c.rules c.outputs).symm

-- Rules that are left out are equivalent to one that is kept, and concluding again adds nothing.
theorem mapState_inferRules_firstOfEach (hmaximum : c.operators.accumulation = .maximum)
    (hstrength : ∀ r ∈ c.rules, ∃ a, r.condition.strength c.inputs c.operators.norm = .ok a) :
    (inferRules { c with rules := firstOfEach Rule.equivalent c.rules }).mapState
        (·.outputs.map ranked) =
      (inferRules c).mapState (·.outputs.map ranked) := by
  let kept := { c with rules := firstOfEach Rule.equivalent c.rules }
  refine (mapState_inferRules (c := kept) hmaximum).trans
    (.trans ?_ (mapState_inferRules hmaximum).symm)
  exact Action.forEach_firstOfEach (RankedOutput.absorbing_infer c.operators c.inputs)
    (fun r hr _ _ h => RankedOutput.infer_congr h (hstrength r hr)) _

theorem mapState_onEach {ρ κ : Type} {act : Action ρ Unit} {f : ρ → κ}
    (hact : ∀ x y, f x = f y → (act x).mapState f = (act y).mapState f) {xs ys : List ρ}
    (h : xs.map f = ys.map f) :
    (Action.onEach act xs).mapState (List.map f) =
      (Action.onEach act ys).mapState (List.map f) := by
  induction xs generalizing ys with
  | nil => rw [List.map_eq_nil_iff.mp h.symm]
  | cons x xs ih =>
    obtain ⟨y, ys, rfl, hxy, hrest⟩ := List.map_eq_cons_iff.mp h.symm
    have hfirst := hact x y hxy.symm
    have hlater := ih hrest.symm
    unfold Action.onEach
    generalize act x = o at hfirst
    generalize act y = o' at hfirst
    obtain ⟨x', notices, answer⟩ := o
    obtain ⟨y', notices', answer'⟩ := o'
    obtain ⟨hstate, rfl, rfl⟩ := Outcome.mk.inj hfirst
    obtain ⟨hstates, hnotices, hanswer⟩ := Outcome.mk.inj hlater
    cases answer with
    | error g =>
      exact congrArg (Outcome.mk · _ _) (congrArg₂ List.cons hstate hrest.symm)
    | ok _ =>
      exact Outcome.mk.injEq .. |>.mpr ⟨congrArg₂ List.cons hstate hstates,
        congrArg (notices ++ ·) hnotices, hanswer⟩

theorem mapState_evaluateRules (hmaximum : c.operators.accumulation = .maximum)
    (hstrength : ∀ r ∈ c.rules, ∃ a, r.condition.strength c.inputs c.operators.norm = .ok a) :
    (evaluateRules { c with rules := firstOfEach Rule.equivalent c.rules }).mapState
        (·.outputs.map ranked) =
      (evaluateRules c).mapState (·.outputs.map ranked) := by
  -- both are prepared alike
  have hinfer := mapState_inferRules_firstOfEach
    (c := { c with outputs := (Action.onEach (Action.change prepare) c.outputs).state })
    hmaximum hstrength
  refine mapState_andThen rfl fun _ => mapState_andThen hinfer fun _ => ?_
  obtain ⟨hstate, -, -⟩ := Outcome.mk.inj hinfer
  have hsettle := mapState_onEach (fun _ _ => OutputVariable.mapState_defuzzify) hstate
  obtain ⟨hstate, hnotices, hanswer⟩ := Outcome.mk.inj hsettle
  exact Outcome.mk.injEq .. |>.mpr ⟨hstate, hnotices, hanswer⟩

/-- Replacing rules by the first of each class is safe.  Equivalent conditions have one strength,
and under the maximum an evaluation leaves the same heights and crisp values as one with all rules,
be it successful or not. -/
theorem setRules_collapses :
    (∀ (inputs : List (Variable α)) (pair : NormPair) (c d : Condition), c.equivalent d = true →
      SameStrength (c.strength inputs pair) (d.strength inputs pair)) ∧
    ∀ (c : Controller α) (rules : List (Rule α)), c.operators.accumulation = .maximum →
      (∀ r ∈ rules, c.Valid r) → ∃ d, c.setRules rules = .ok d ∧
        (evaluateRules d).answer = (evaluateRules { c with rules }).answer ∧
        (evaluateRules d).notices = (evaluateRules { c with rules }).notices ∧
        Forall₂ OutputVariable.Same (evaluateRules d).state.outputs
          (evaluateRules { c with rules }).state.outputs := by
  refine ⟨fun inputs pair c d => Condition.sameStrength_of_equivalent inputs pair,
    fun c rules hmaximum hvalid => ⟨_, setRules_eq_ok.mpr ⟨hvalid, rfl⟩, ?_⟩⟩
  have hstrength : ∀ r ∈ rules, ∃ a, r.condition.strength c.inputs c.operators.norm = .ok a :=
    fun r hr => Condition.exists_strength_of_found (hvalid r hr).leaves c.operators.norm
  obtain ⟨hstate, hnotices, hanswer⟩ := Outcome.mk.inj
    (mapState_evaluateRules (c := { c with rules }) hmaximum hstrength)
  refine ⟨hanswer, hnotices, ?_⟩
  rw [← List.forall₂_eq_eq_eq, List.forall₂_map_left_iff, List.forall₂_map_right_iff] at hstate
  exact hstate.imp fun _ _ => OutputVariable.same_iff.mpr

/-- Rules of a fan, the first of which comes again with its operands exchanged. -/
def fanRules : List (Rule Rat) :=
  [.ofCondition (.and (.is ⟨"temperature", 1, false⟩) (.is ⟨"temperature", 0, true⟩)) "speed" 1 1,
    .ofCondition (.is ⟨"temperature", 0, false⟩) "speed" 0 1,
    .ofCondition (.and (.is ⟨"temperature", 0, true⟩) (.is ⟨"temperature", 1, false⟩)) "speed" 1 1]

theorem setRules_collapses_fan :
    SameStrength ((fanRules[0]).condition.strength (fan .maximum).inputs .probability)
        ((fanRules[2]).condition.strength (fan .maximum).inputs .probability) ∧
      ∃ d, (fan .maximum).setRules fanRules = .ok d ∧ d.rules.length = 2 ∧
        (evaluateRules d).answer = .ok () ∧
        (evaluateRules d).state.height? "speed" 3 = some (1 / 4) ∧
        Forall₂ OutputVariable.Same (evaluateRules d).state.outputs
          (evaluateRules { fan .maximum with rules := fanRules }).state.outputs := by
  have hvalid : ∀ r ∈ fanRules, (fan .maximum).Valid r := by
    have hcheck : ∀ r ∈ fanRules, (fan .maximum).checkRule r = .ok () := by decide +kernel
    exact fun r hr => checkRule_eq_ok.mp (hcheck r hr)
  obtain ⟨hstrength, hrules⟩ := setRules_collapses (α := Rat)
  obtain ⟨d, hd, -, -, hsame⟩ := hrules (fan .maximum) fanRules rfl hvalid
  obtain ⟨-, rfl⟩ := setRules_eq_ok.mp hd
  exact ⟨hstrength _ _ _ _ (by decide), _, hd, by decide +kernel, by decide +kernel,
    by decide +kernel, hsame⟩

end Controller

end FuzzyInference
