import FuzzyInference.Proofs.GridSizes
import FuzzyInference.Proofs.Ranges

/-!
# Terms that have been sampled

Whether an output is discretized is read off the counts of samples.  A new term has one sample
already, so the counts tell whether all terms were sampled unless the grid has one point only.
-/

namespace FuzzyInference

variable {α : Type} [Scalar α]

/-- The operation adds or replaces terms, puts a new one behind the others, sets the resolution or
builds the grid. -/
def OutputOperation.Builds : OutputOperation α → Prop
  | .addTerm _ | .replaceTerms _ | .setResolution _ | .discretize => True
  | .appendTerm t => ∃ name points, t = .ofPoints name points
  | _ => False

namespace OutputVariable

/-- The variable after some operations, successful or not. -/
def after (o : OutputVariable α) (operations : List (OutputOperation α)) : OutputVariable α :=
  operations.foldl (fun o operation => (operation.run o).state) o

theorem after_concat (o : OutputVariable α) (operations : List (OutputOperation α))
    (operation : OutputOperation α) :
    o.after (operations ++ [operation]) = (operation.run (o.after operations)).state := by
  unfold after
  rw [List.foldl_append]
  rfl

theorem exists_empty_of_discretize {o : OutputVariable α} {f : Fault} (hterms : o.terms ≠ [])
    (h : o.discretize = .error f) : ∃ t ∈ o.terms, t.points = [] := by
  by_contra hnone
  obtain ⟨o', ho'⟩ := exists_discretize hterms fun t ht hpoints => hnone ⟨t, ht, hpoints⟩
  cases h.symm.trans ho'

/-! ## The last grid -/

/-- The last grid was built between `before` and `after`, and left the variable `built`. Since then
it has only got the new terms `extra`; any later attempt to build the grid met one without points. -/
structure LastGrid (o : OutputVariable α) (operations before after : List (OutputOperation α))
    (built : OutputVariable α) (extra : List (Term α)) : Prop where
  operations_eq : operations = before ++ .discretize :: after
  discretize_eq : (o.after before).discretize = .ok built
  after_eq : o.after operations = { built with terms := built.terms ++ extra }
  unsampled : ∀ t ∈ extra, ∃ name points, t = .ofPoints name points
  attempts : .discretize ∈ after → ∃ t ∈ extra, t.points = []

namespace LastGrid

variable {o built : OutputVariable α} {operations before after : List (OutputOperation α)}
  {extra : List (Term α)}

-- An operation that changes nothing, be it because it fails.
theorem kept (h : o.LastGrid operations before after built extra) {operation : OutputOperation α}
    (hstate : (operation.run (o.after operations)).state = o.after operations)
    (hattempt : operation = .discretize → ∃ t ∈ extra, t.points = []) :
    o.LastGrid (operations ++ [operation]) before (after ++ [operation]) built extra where
  operations_eq := by rw [h.operations_eq, List.append_assoc, List.cons_append]
  discretize_eq := h.discretize_eq
  after_eq := by rw [after_concat, hstate, h.after_eq]
  unsampled := h.unsampled
  attempts hmem := by
    rcases List.mem_append.mp hmem with hmem | hmem
    · exact h.attempts hmem
    · exact hattempt (List.mem_singleton.mp hmem).symm

theorem appended (h : o.LastGrid operations before after built extra) {t : Term α}
    (ht : ∃ name points, t = .ofPoints name points) :
    o.LastGrid (operations ++ [.appendTerm t]) before (after ++ [.appendTerm t]) built
      (extra ++ [t]) where
  operations_eq := by rw [h.operations_eq, List.append_assoc, List.cons_append]
  discretize_eq := h.discretize_eq
  after_eq := by
    rw [after_concat, h.after_eq, ← List.append_assoc]
    rfl
  unsampled := List.forall_mem_append.mpr ⟨h.unsampled, List.forall_mem_singleton.mpr ht⟩
  attempts hmem := by
    rcases List.mem_append.mp hmem with hmem | hmem
    · obtain ⟨s, hs, hpoints⟩ := h.attempts hmem
      exact ⟨s, List.mem_append_left _ hs, hpoints⟩
    · cases List.mem_singleton.mp hmem

-- The terms that were sampled have points, so it is a later one that has none.
theorem exists_empty (h : o.LastGrid operations before after built extra) {f : Fault}
    (hfault : (o.after operations).discretize = .error f) : ∃ t ∈ extra, t.points = [] := by
  have hcurrent := current_of_discretize h.discretize_eq
  rw [h.after_eq] at hfault
  have hterms : built.terms ++ extra ≠ [] := List.append_ne_nil_of_left_ne_nil hcurrent.1 _
  obtain ⟨t, ht, hpoints⟩ := exists_empty_of_discretize hterms hfault
  rcases List.mem_append.mp ht with ht | ht
  · exact absurd hpoints (hcurrent.points_ne_nil ht)
  · exact ⟨t, ht, hpoints⟩

end LastGrid

/-- There is no grid, or it is the last one that has been built. -/
def Tracked (o : OutputVariable α) (operations : List (OutputOperation α)) : Prop :=
  (o.after operations).grid = none ∨
    ∃ before after built extra, o.LastGrid operations before after built extra

theorem tracked_of_none {o : OutputVariable α} {operations : List (OutputOperation α)}
    {operation : OutputOperation α}
    (h : (operation.run (o.after operations)).state.grid = none) :
    o.Tracked (operations ++ [operation]) := by
  refine .inl ?_
  rw [after_concat]
  exact h

theorem Tracked.concat {o : OutputVariable α} {operations : List (OutputOperation α)}
    (h : o.Tracked operations) {operation : OutputOperation α} (hbuilds : operation.Builds) :
    o.Tracked (operations ++ [operation]) := by
  -- an operation that fails
  have hfailed (hstate : (operation.run (o.after operations)).state = o.after operations)
      (hattempt : operation = .discretize → ∃ f, (o.after operations).discretize = .error f) :
      o.Tracked (operations ++ [operation]) := by
    rcases h with hnone | ⟨before, after, built, extra, h⟩
    · exact tracked_of_none (by rw [hstate]; exact hnone)
    · refine .inr ⟨_, _, _, _, h.kept hstate fun hdiscretize => ?_⟩
      obtain ⟨f, hfault⟩ := hattempt hdiscretize
      exact h.exists_empty hfault
  cases operation with
  | addTerm t | replaceTerms terms => exact tracked_of_none rfl
  | appendTerm t =>
    rcases h with hnone | ⟨before, after, built, extra, h⟩
    · exact tracked_of_none hnone
    · exact .inr ⟨_, _, _, _, h.appended hbuilds⟩
  | setResolution value =>
    cases hset : (o.after operations).setResolution value with
    | error f =>
      exact hfailed (congrArg Outcome.state (Action.change_of_error hset)) fun h => by cases h
    | ok o' =>
      refine tracked_of_none ?_
      rw [OutputOperation.run, Action.change_of_ok hset]
      obtain ⟨n, -, rfl⟩ := map_eq_ok.mp hset
      rfl
  | discretize =>
    have hrun : (OutputOperation.discretize (α := α)).run = Action.change discretize :=
      buildGrid_eq
    cases hdiscretize : (o.after operations).discretize with
    | error f =>
      refine hfailed ?_ fun _ => ⟨f, hdiscretize⟩
      rw [hrun, Action.change_of_error hdiscretize]
    | ok built =>
      have hnow : o.after (operations ++ [.discretize]) = built := by
        rw [after_concat, hrun, Action.change_of_ok hdiscretize]
      exact .inr ⟨operations, [], built, [], {
        operations_eq := rfl
        discretize_eq := hdiscretize
        after_eq := by rw [hnow, List.append_nil]
        unsampled := fun _ ht => absurd ht List.not_mem_nil
        attempts := fun hmem => absurd hmem List.not_mem_nil }⟩
  | fuzzify x | onTerm index operation | reset | setY index y | fill start ys | defuzzify
  | setMethod value | setDefault value => exact hbuilds.elim

/-- The grid of a variable that operations have built is the last one. -/
theorem tracked_of_create {name : String} {terms : List (Term α)}
    {resolution method defaultValue : Setting α} {o : OutputVariable α}
    (hcreate : create name terms resolution method defaultValue = .ok o)
    {operations : List (OutputOperation α)} (hbuilds : ∀ operation ∈ operations, operation.Builds) :
    o.Tracked operations := by
  induction operations using List.reverseRecOn with
  | nil => exact .inl (grid_of_create hcreate)
  | append_singleton operations operation ih =>
    obtain ⟨hearlier, hlast⟩ := List.forall_mem_append.mp hbuilds
    exact (ih hearlier).concat (hlast operation (List.mem_singleton_self operation))

/-! ## What the counts of samples tell -/

namespace LastGrid

variable {o built : OutputVariable α} {operations before after : List (OutputOperation α)}
  {extra : List (Term α)}

-- A new term has one sample, whatever the resolution is.
theorem resolution_eq_one (h : o.LastGrid operations before after built extra)
    (hready : (o.after operations).isDiscretized = true) (hextra : extra ≠ []) :
    (o.after operations).resolution = 1 := by
  obtain ⟨t, ht⟩ := List.exists_mem_of_ne_nil extra hextra
  obtain ⟨name, points, rfl⟩ := h.unsampled t ht
  have hmem : Term.ofPoints name points ∈ (o.after operations).terms := by
    rw [h.after_eq]
    exact List.mem_append_right _ ht
  exact (length_samples_of_isDiscretized hready _ hmem).symm

theorem current (h : o.LastGrid operations before after built []) :
    (o.after operations).Current := by
  rw [h.after_eq, List.append_nil]
  exact current_of_discretize h.discretize_eq

end LastGrid

end OutputVariable

/-- Rules are not evaluated while an output is not discretized. -/
theorem Controller.fails_evaluateRules_of_not_isDiscretized {c : Controller α}
    {o : OutputVariable α} (ho : o ∈ c.outputs) (hready : o.isDiscretized = false) :
    ∃ p ∈ c.outputs, p.isDiscretized = false ∧
      evaluateRules.Fails c (.misconfigured (.notDiscretized p.name)) := by
  rcases Action.leads_or_fails prepareAll c with ⟨d, _, h⟩ | ⟨f, h⟩
  · obtain ⟨prepared, hprepare, -⟩ := leads_prepareAll.mp h
    obtain ⟨o', -, ho'⟩ := exists_mem_of_mapM_eq_ok hprepare ho
    rw [exists_prepare_iff.mp ⟨o', ho'⟩] at hready
    cases hready
  · obtain ⟨p, hp, hmissing, rfl⟩ := exists_of_fails_prepareAll h
    exact ⟨p, hp, hmissing, fails_evaluateRules.mpr (.inl h)⟩

namespace OutputVariable

section Certificate

variable {name : String} {terms : List (Term α)} {resolution method defaultValue : Setting α}
  {o : OutputVariable α} {operations : List (OutputOperation α)}

theorem exists_lastGrid (hcreate : create name terms resolution method defaultValue = .ok o)
    (hbuilds : ∀ operation ∈ operations, operation.Builds)
    (hready : (o.after operations).isDiscretized = true) :
    ∃ before after built extra, o.LastGrid operations before after built extra ∧
      ((o.after operations).resolution ≠ 1 → extra = [] ∧ .discretize ∉ after) := by
  rcases tracked_of_create hcreate hbuilds with hnone | ⟨before, after, built, extra, h⟩
  · have hsome := (Bool.and_eq_true_iff.mp hready).1
    rw [hnone] at hsome
    cases hsome
  · refine ⟨before, after, built, extra, h, fun hresolution => ?_⟩
    have hextra : extra = [] := by
      by_contra hextra
      exact hresolution (h.resolution_eq_one hready hextra)
    refine ⟨hextra, fun hmem => ?_⟩
    obtain ⟨t, ht, -⟩ := h.attempts hmem
    rw [hextra] at ht
    cases ht

theorem current_of_isDiscretized
    (hcreate : create name terms resolution method defaultValue = .ok o)
    (hbuilds : ∀ operation ∈ operations, operation.Builds)
    (hresolution : (o.after operations).resolution ≠ 1)
    (hready : (o.after operations).isDiscretized = true) : (o.after operations).Current := by
  obtain ⟨before, after, built, extra, h, hextra⟩ := exists_lastGrid hcreate hbuilds hready
  obtain ⟨rfl, -⟩ := hextra hresolution
  exact h.current

/-- An output that counts as discretized has the terms that were sampled when its grid was built.
Terms that came later are there only if the grid has one point; on any other grid all terms are
sampled, and a term that is not keeps the rules from being evaluated. -/
theorem isDiscretized_certifies
    (hcreate : create name terms resolution method defaultValue = .ok o)
    (hbuilds : ∀ operation ∈ operations, operation.Builds) :
    ((o.after operations).isDiscretized = true → ∃ before after built extra,
      o.LastGrid operations before after built extra ∧
        ((o.after operations).resolution ≠ 1 → extra = [] ∧ .discretize ∉ after)) ∧
    ((o.after operations).resolution ≠ 1 →
      ((o.after operations).isDiscretized = true → (o.after operations).Current) ∧
      ∀ c : Controller α, o.after operations ∈ c.outputs → ¬(o.after operations).Current →
        ∃ p ∈ c.outputs, p.isDiscretized = false ∧
          Controller.evaluateRules.Fails c (.misconfigured (.notDiscretized p.name))) := by
  refine ⟨exists_lastGrid hcreate hbuilds, fun hresolution =>
    ⟨current_of_isDiscretized hcreate hbuilds hresolution, fun c hmem hstale => ?_⟩⟩
  refine Controller.fails_evaluateRules_of_not_isDiscretized hmem ?_
  by_contra hready
  rw [Bool.not_eq_false] at hready
  exact hstale (current_of_isDiscretized hcreate hbuilds hresolution hready)

end Certificate

/-- A new output with a single grid point. -/
def single : OutputVariable Rat :=
  ⟨⟨"y", [.ofPoints "b" [⟨0, 0⟩, ⟨1, 1⟩]]⟩, 0, 0, 1, .gravity, none⟩

theorem create_single : create "y" [.ofPoints "b" [⟨0, 0⟩, ⟨1, 1⟩]] (.integer 1) (.text "COG")
    (.real 0) = .ok single := by
  decide +kernel

/-- The grid is built, and a new term is put behind the sampled one. -/
def lateTerm : List (OutputOperation Rat) := [.discretize, .appendTerm (.ofPoints "c" [⟨0, 1⟩])]

theorem builds_lateTerm : ∀ operation ∈ lateTerm, operation.Builds :=
  List.forall_mem_cons.mpr ⟨trivial, List.forall_mem_singleton.mpr ⟨_, _, rfl⟩⟩

theorem isDiscretized_certifies_wider :
    (single.after (lateTerm ++ [.setResolution (.integer 3), .discretize])).isDiscretized = true ∧
      (single.after (lateTerm ++ [.setResolution (.integer 3), .discretize])).Current := by
  have hready : (single.after
      (lateTerm ++ [.setResolution (.integer 3), .discretize])).isDiscretized = true := by
    decide +kernel
  have hbuilds : ∀ operation ∈ lateTerm ++ [.setResolution (.integer 3), .discretize],
      operation.Builds :=
    List.forall_mem_append.mpr ⟨builds_lateTerm,
      List.forall_mem_cons.mpr ⟨trivial, List.forall_mem_singleton.mpr trivial⟩⟩
  exact ⟨hready,
    ((isDiscretized_certifies create_single hbuilds).2 (by decide +kernel)).1 hready⟩

/-- A controller whose output got a new term after its only grid point was built. -/
def narrow : Controller Rat := built "" [
  .addOutput "y" [.ofPoints "b" [⟨0, 0⟩, ⟨1, 1⟩]] (.integer 1) (.text "COG") (.real 0),
  .onOutput "y" .discretize,
  .onOutput "y" (.appendTerm (.ofPoints "c" [⟨0, 1⟩]))]

-- The sample that the new term has from the start is taken for one of the grid.
theorem isDiscretized_narrow : narrow.Reachable ∧ narrow.outputs = [single.after lateTerm] ∧
    (single.after lateTerm).isDiscretized = true ∧ ¬(single.after lateTerm).Current ∧
    ∃ d, Controller.evaluateRules.Leads narrow d () := by
  have hanswer : (Controller.evaluateRules narrow).answer = .ok () := by decide +kernel
  refine ⟨reachable_built "" _, by decide +kernel, by decide +kernel, ?_,
    _, Action.leads_of_answer hanswer⟩
  rintro ⟨-, domains, -, hxs, hsamples⟩
  have hgrid : (single.after lateTerm).grid.map (·.xs) = some [0] := by decide +kernel
  have hlate : Term.ofPoints "c" [⟨0, 1⟩] ∈ (single.after lateTerm).terms := by decide +kernel
  have hdegree := hsamples _ hlate
  rw [← Option.some.inj (hgrid.symm.trans hxs)] at hdegree
  -- the degree at the grid point is one, and the sample is zero
  revert hdegree
  decide +kernel

end OutputVariable

end FuzzyInference
