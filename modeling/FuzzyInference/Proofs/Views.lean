import FuzzyInference.Proofs.Readiness
import FuzzyInference.Proofs.Steps
import FuzzyInference.Sharing

/-!
# Terms that nobody shares

As long as no term is held twice, a controller with its terms in a store does what the controller
does whose variables own their terms: every step leaves the same state, gives the same notices and
ends with the same answer or fault.
-/

namespace FuzzyInference

/-! ## Actions seen from outside -/

namespace Action

variable {σ τ ι β γ : Type} {see : σ → τ} {P : σ → Prop}

/-- In states with a property, which the action keeps, the action does to what is seen of the state
what another action does there. -/
def Shows (see : σ → τ) (P : σ → Prop) (act : Action σ β) (seen : Action τ β) : Prop :=
  ∀ s, P s → P (act s).state ∧ seen (see s) = ⟨see (act s).state, (act s).notices, (act s).answer⟩

theorem Shows.bind {act : Action σ β} {seen : Action τ β} {next : β → Action σ γ}
    {nextSeen : β → Action τ γ} (h : Shows see P act seen)
    (hnext : ∀ b, Shows see P (next b) (nextSeen b)) :
    Shows see P (act >>= next) (seen >>= nextSeen) := by
  intro s hs
  have hact := h s hs
  rw [bind_eq, bind_eq]
  unfold andThen
  generalize act s = o at hact ⊢
  cases o with
  | mk t notices answer =>
    rw [hact.2]
    cases answer with
    | error f => exact ⟨hact.1, rfl⟩
    | ok b =>
      refine ⟨(hnext b t hact.1).1, ?_⟩
      dsimp only
      rw [(hnext b t hact.1).2]

theorem Shows.forEach {act : ι → Action σ Unit} {seen : ι → Action τ Unit}
    (h : ∀ i, Shows see P (act i) (seen i)) (items : List ι) :
    Shows see P (Action.forEach items act) (Action.forEach items seen) := by
  induction items with
  | nil => exact fun s hs => ⟨hs, rfl⟩
  | cons i items ih => exact (h i).bind fun _ => ih

theorem Shows.give (b : β) : Shows see P (give b) (give b) := fun _ hs => ⟨hs, rfl⟩

theorem Shows.ask {f : σ → Except Fault β} {g : τ → Except Fault β} (h : ∀ s, g (see s) = f s) :
    Shows see P (ask f) (ask g) := by
  intro s hs
  refine ⟨hs, ?_⟩
  show Outcome.mk (see s) [] (g (see s)) = ⟨see s, [], f s⟩
  rw [h]

theorem onFirst_of_find?_eq_none {found : σ → Bool} {missing : Fault} {act : Action σ β}
    {xs : List σ} (h : xs.find? found = none) :
    onFirst found missing act xs = ⟨xs, [], .error missing⟩ := by
  induction xs with
  | nil => rfl
  | cons x xs ih =>
    by_cases hx : found x = true
    · rw [List.find?_cons_of_pos hx] at h
      cases h
    · rw [List.find?_cons_of_neg hx] at h
      rw [onFirst, if_neg hx, ih h]

end Action

variable {α : Type}

/-! ## Variables -/

theorem Holder.load_congr {v : Holder} {store store' : Nat → Term α}
    (h : ∀ q ∈ v.places, store' q = store q) : v.load store' = v.load store := by
  unfold load
  rw [List.map_congr_left h]

theorem OutputHolder.load_congr {o : OutputHolder α} {store store' : Nat → Term α}
    (h : ∀ q ∈ o.places, store' q = store q) : o.load store' = o.load store := by
  unfold load
  rw [Holder.load_congr h]

-- Only one variable changes when its places are no other's.
theorem Holder.onFirst_load {β : Type} {name : String} {missing : Fault}
    {act : Action (Variable α) β} {vs : List Holder} {v : Holder} {store store' : Nat → Term α}
    {notices : List Notice} {answer : Except Fault β} (hapart : (vs.flatMap (·.places)).Nodup)
    (hfind : vs.find? (·.name == name) = some v) (hoff : ∀ q ∉ v.places, store' q = store q)
    (hact : act (v.load store) = ⟨v.load store', notices, answer⟩) :
    Action.onFirst (·.name == name) missing act (vs.map (load store)) =
      ⟨vs.map (load store'), notices, answer⟩ := by
  -- on the variables before the one that is found
  induction vs with
  | nil => cases hfind
  | cons w vs ih =>
    rw [List.flatMap_cons, List.nodup_append] at hapart
    rw [List.map_cons, List.map_cons, Action.onFirst]
    by_cases hw : (w.name == name) = true
    · rw [List.find?_cons_of_pos (p := fun v : Holder => v.name == name) hw] at hfind
      have hrest : vs.map (load store') = vs.map (load store) := by
        refine List.map_congr_left fun u hu => load_congr fun q hq => hoff q fun hqv => ?_
        rw [← Option.some.inj hfind] at hqv
        exact hapart.2.2 q hqv q (List.mem_flatMap.mpr ⟨u, hu, hq⟩) rfl
      rw [Option.some.inj hfind, if_pos (show ((v.load store).name == name) = true from
        Option.some.inj hfind ▸ hw), hact, hrest]
    · rw [List.find?_cons_of_neg (p := fun v : Holder => v.name == name) hw] at hfind
      have hfirst : w.load store' = w.load store := by
        refine load_congr fun q hq => hoff q fun hqv => ?_
        have hmem : q ∈ vs.flatMap (·.places) :=
          List.mem_flatMap.mpr ⟨v, List.mem_of_find?_eq_some hfind, hqv⟩
        exact hapart.2.2 q hq q hmem rfl
      rw [if_neg (show ¬ ((w.load store).name == name) = true from hw), ih hapart.2.1 hfind, hfirst]

namespace SharedController

/-- No term is held twice. -/
def Separate (s : SharedController α) : Prop :=
  (s.inputs.flatMap (·.places) ++ s.outputs.flatMap (·.places)).Nodup

variable [Scalar α]

-- A fault leaves the store as it is, so what is seen of the term is what lies in the store.
theorem takeDegree_of_ok {s : SharedController α} {division : Division} {x : α} {place : Nat}
    {t : Term α} (h : (s.store place).fuzzify division x = .ok t) :
    takeDegree division x place s = ⟨s.put place t, [], .ok ()⟩ := by
  unfold takeDegree Action.within
  rw [Action.change_of_ok h]

theorem takeDegree_of_error {s : SharedController α} {division : Division} {x : α} {place : Nat}
    {f : Fault} (h : (s.store place).fuzzify division x = .error f) :
    takeDegree division x place s = ⟨s, [], .error f⟩ := by
  have hput : s.put place (s.store place) = s := by
    unfold put
    congr 1
    funext q
    by_cases hq : q = place
    · rw [if_pos hq, hq]
    · rw [if_neg hq]
  unfold takeDegree Action.within
  rw [Action.change_of_error h]
  show Outcome.mk (s.put place (s.store place)) [] _ = _
  rw [hput]

/-- Taking degrees at places of which none occurs twice is taking them in the terms there. -/
theorem onEach_takeDegree {places : List Nat} (hplaces : places.Nodup) (s : SharedController α)
    (division : Division) (x : α) : ∃ store notices answer,
      Action.forEach places (takeDegree division x) s = ⟨{ s with store }, notices, answer⟩ ∧
      Action.onEach (Action.change (Term.fuzzify · division x)) (places.map s.store) =
        ⟨places.map store, notices, answer⟩ ∧
      ∀ q ∉ places, store q = s.store q := by
  induction places generalizing s with
  | nil => exact ⟨s.store, [], .ok (), rfl, rfl, fun _ _ => rfl⟩
  | cons p places ih =>
    rw [List.nodup_cons] at hplaces
    rw [List.map_cons, Action.forEach, Action.onEach]
    cases hterm : (s.store p).fuzzify division x with
    | error f =>
      refine ⟨s.store, [], .error f, ?_, ?_, fun _ _ => rfl⟩
      · unfold Action.andThen
        rw [takeDegree_of_error hterm]
      · rw [Action.change_of_error hterm]
        rfl
    | ok t =>
      obtain ⟨store, notices, answer, hrun, hseen, hoff⟩ := ih hplaces.2 (s.put p t)
      have hstore : places.map (s.put p t).store = places.map s.store := by
        refine List.map_congr_left fun q hq => if_neg ?_
        intro hqp
        exact hplaces.1 (hqp ▸ hq)
      have hfirst : store p = t := (hoff p hplaces.1).trans (if_pos rfl)
      refine ⟨store, notices, answer, ?_, ?_, fun q hq => ?_⟩
      · rw [Action.andThen_of_ok (takeDegree_of_ok hterm), hrun]
        rfl
      · rw [Action.change_of_ok hterm]
        dsimp only
        rw [← hstore, hseen, List.map_cons, hfirst]
        rfl
      · rw [List.mem_cons, not_or] at hq
        rw [hoff q hq.2]
        exact if_neg hq.1

variable {β : Type}

/-- The action does to a controller whose terms nobody shares what the other one does to what is
seen of it. -/
abbrev Agrees (act : Action (SharedController α) β) (seen : Action (Controller α) β) : Prop :=
  Action.Shows view Separate act seen

theorem fuzzify_of_input {s : SharedController α} {name : String} {v : Holder}
    (h : s.input? name = some v) (division : Division) (x : α) :
    fuzzify division name x s = Action.forEach v.places (takeDegree division x) s := by
  have hlook : Action.look s = ⟨s, [], .ok s⟩ := rfl
  unfold fuzzify
  rw [Action.bind_of_quiet hlook, h]

theorem fuzzify_of_no_input {s : SharedController α} {name : String} (h : s.input? name = none)
    (division : Division) (x : α) :
    fuzzify division name x s = ⟨s, [], .error (.misconfigured (.unknownInput name))⟩ := by
  have hlook : Action.look s = ⟨s, [], .ok s⟩ := rfl
  unfold fuzzify
  rw [Action.bind_of_quiet hlook, h]
  rfl

theorem agrees_fuzzify (division : Division) (name : String) (x : α) :
    Agrees (fuzzify division name x) (Controller.fuzzify division name x) := by
  intro s hs
  have hapart := List.nodup_append.mp hs
  unfold Controller.fuzzify Controller.onInput Action.within
  cases hv : s.input? name with
  | none =>
    have hfind : s.view.inputs.find? (·.name == name) = none := by
      show (s.inputs.map (Holder.load s.store)).find? (·.name == name) = none
      rw [List.find?_map]
      exact congrArg (Option.map _) hv
    rw [fuzzify_of_no_input hv, Action.onFirst_of_find?_eq_none hfind]
    exact ⟨hs, rfl⟩
  | some v =>
    have hmem : v ∈ s.inputs := List.mem_of_find?_eq_some hv
    obtain ⟨store, notices, answer, hrun, hseen, hoff⟩ :=
      onEach_takeDegree ((List.nodup_flatMap.mp hapart.1).1 v hmem) s division x
    rw [fuzzify_of_input hv, hrun]
    refine ⟨hs, ?_⟩
    have hvariable : Variable.fuzzify division x (v.load s.store) =
        ⟨v.load store, notices, answer⟩ := by
      unfold Variable.fuzzify Action.within
      show Outcome.mk (⟨v.name, _⟩ : Variable α) _ _ = _
      rw [show (v.load s.store).terms = v.places.map s.store from rfl, hseen]
      rfl
    have houtputs : s.outputs.map (OutputHolder.load store) =
        s.outputs.map (OutputHolder.load s.store) := by
      apply List.map_congr_left
      intro o ho
      apply OutputHolder.load_congr
      intro q hq
      apply hoff q
      intro hqv
      exact hapart.2.2 q (List.mem_flatMap.mpr ⟨v, hmem, hqv⟩) q
        (List.mem_flatMap.mpr ⟨o, ho, hq⟩) rfl
    show Outcome.mk ({ s.view with inputs := _ } : Controller α) _ _ = _
    rw [show s.view.inputs = s.inputs.map (Holder.load s.store) from rfl,
      Holder.onFirst_load hapart.1 hv hoff hvariable]
    unfold view
    rw [← houtputs]

/-! ## Actions that leave the terms as they are -/

end SharedController

/-- The controllers have the same variables with the same terms, up to the grids, settings and crisp
values of the outputs. -/
structure Controller.SameVariables (c d : Controller α) : Prop where
  config : d.config = c.config
  name : d.name = c.name
  inputs : d.inputs = c.inputs
  outputs : d.outputs.map (·.toVariable) = c.outputs.map (·.toVariable)

theorem OutputHolder.load_save {store : Nat → Term α} {o : OutputHolder α} {p : OutputVariable α}
    (h : p.toVariable = (o.load store).toVariable) : (o.save p).load store = p := by
  cases p
  cases h
  rfl

theorem OutputHolder.map_load_save {store : Nat → Term α} {os : List (OutputHolder α)}
    {ps : List (OutputVariable α)}
    (h : ps.map (·.toVariable) = (os.map (load store)).map (·.toVariable)) :
    (List.zipWith save os ps).map (load store) = ps := by
  induction os generalizing ps with
  | nil =>
    rw [List.map_eq_nil_iff.mp h]
    rfl
  | cons o os ih =>
    cases ps with
    | nil => cases h
    | cons p ps =>
      obtain ⟨hfirst, hrest⟩ := List.cons.inj h
      rw [List.zipWith_cons_cons, List.map_cons, load_save hfirst, ih hrest]

-- The places are left as they are.
theorem OutputHolder.map_toHolder_save {os : List (OutputHolder α)} {ps : List (OutputVariable α)}
    (h : os.length ≤ ps.length) :
    (List.zipWith save os ps).map (·.toHolder) = os.map (·.toHolder) := by
  rw [← List.map_uncurry_zip_eq_zipWith, List.map_map]
  calc
    (os.zip ps).map _ = ((os.zip ps).map Prod.fst).map (·.toHolder) := by rw [List.map_map]; rfl
    _ = os.map (·.toHolder) := by rw [List.map_fst_zip h]

theorem OutputHolder.flatMap_places_save {os : List (OutputHolder α)} {ps : List (OutputVariable α)}
    (h : os.length ≤ ps.length) :
    (List.zipWith save os ps).flatMap (·.places) = os.flatMap (·.places) := by
  have hplaces := congrArg (List.flatMap (·.places)) (map_toHolder_save h)
  rwa [List.flatMap_map, List.flatMap_map] at hplaces

namespace SharedController

theorem view_save {s : SharedController α} {c : Controller α} (h : s.view.SameVariables c) :
    (save c s).view = c := by
  obtain ⟨hconfig, hname, hinputs, houtputs⟩ := h
  unfold view save
  dsimp only
  rw [OutputHolder.map_load_save houtputs]
  cases c
  cases hconfig
  cases hname
  cases hinputs
  rfl

theorem agrees_apart {act : Action (Controller α) β} (h : act.Moves Controller.SameVariables) :
    Agrees (apart act) act := by
  intro s hs
  have hvariables := h s.view
  unfold apart Action.within
  dsimp only
  rw [view_save hvariables]
  refine ⟨?_, rfl⟩
  have hlength : s.outputs.length ≤ (act s.view).state.outputs.length := by
    have hsame := congrArg List.length hvariables.outputs
    rw [List.length_map, List.length_map] at hsame
    rw [hsame]
    exact (List.length_map _).ge
  unfold Separate save
  rw [OutputHolder.flatMap_places_save hlength]
  exact hs

/-! ## Variables that own their terms -/

end SharedController

-- The places of the variables' terms, one behind the other from a place on.
theorem Holder.exists_load (vs : List (Variable α)) (start : Nat) : ∃ holders : List Holder,
    holders.flatMap (·.places) = List.range' start (vs.flatMap (·.terms)).length ∧
    ∀ store : Nat → Term α,
      (List.range' start (vs.flatMap (·.terms)).length).map store = vs.flatMap (·.terms) →
      holders.map (load store) = vs := by
  induction vs generalizing start with
  | nil => exact ⟨[], rfl, fun _ _ => rfl⟩
  | cons v vs ih =>
    obtain ⟨holders, hplaces, hload⟩ := ih (start + v.terms.length)
    have hsplit : List.range' start v.terms.length ++
        List.range' (start + v.terms.length) (vs.flatMap (·.terms)).length =
          List.range' start (v.terms.length + (vs.flatMap (·.terms)).length) :=
      List.range'_append_1
    refine ⟨⟨v.name, List.range' start v.terms.length⟩ :: holders, ?_, fun store h => ?_⟩
    · rw [List.flatMap_cons, hplaces, List.flatMap_cons, List.length_append, ← hsplit]
    · rw [List.flatMap_cons, List.length_append, ← hsplit, List.map_append] at h
      obtain ⟨hfirst, hrest⟩ := List.append_inj h (by rw [List.length_map, List.length_range'])
      rw [List.map_cons, hload store hrest, load, hfirst]

variable [Scalar α]

/-- Every controller whose variables own their terms is seen of one whose variables hold no term in
common. -/
theorem SharedController.exists_view (c : Controller α) :
    ∃ s : SharedController α, s.Separate ∧ s.view = c := by
  obtain ⟨inputs, hinputs, hloadInputs⟩ := Holder.exists_load c.inputs 0
  obtain ⟨outputs, houtputs, hloadOutputs⟩ := Holder.exists_load (c.outputs.map (·.toVariable))
    (c.inputs.flatMap (·.terms)).length
  generalize c.inputs.flatMap (·.terms) = mine at *
  generalize (c.outputs.map (·.toVariable)).flatMap (·.terms) = theirs at *
  let store (q : Nat) : Term α := (mine ++ theirs).getD q ⟨"", [], 0, []⟩
  have hall : List.range' 0 mine.length ++ List.range' mine.length theirs.length =
      List.range' 0 (mine ++ theirs).length := by
    rw [List.length_append, ← List.range'_append_1, Nat.zero_add]
  have hstore : (List.range' 0 (mine ++ theirs).length).map store = mine ++ theirs := by
    refine List.ext_getElem (by rw [List.length_map, List.length_range']) fun i _ hi => ?_
    rw [List.getElem_map, List.getElem_range', Nat.one_mul, Nat.zero_add]
    simp only [store, List.getD_eq_getElem?_getD, List.getElem?_eq_getElem hi, Option.getD_some]
  rw [← hall, List.map_append] at hstore
  obtain ⟨hmine, htheirs⟩ := List.append_inj hstore (by rw [List.length_map, List.length_range'])
  let holders : List (OutputHolder α) := outputs.map fun h => ⟨h, 0, 0, 0, .gravity, none⟩
  have hlength : holders.length ≤ c.outputs.length := by
    rw [List.length_map, ← List.length_map (f := Holder.load store), hloadOutputs store htheirs,
      List.length_map]
  refine ⟨⟨c.config, c.name, store, inputs, List.zipWith OutputHolder.save holders c.outputs,
    c.rules, c.operators⟩, ?_, ?_⟩
  · unfold Separate
    dsimp only
    rw [OutputHolder.flatMap_places_save hlength, List.flatMap_map, hinputs, houtputs, hall]
    exact List.nodup_range'
  · unfold view
    dsimp only
    rw [hloadInputs store hmine, OutputHolder.map_load_save]
    rw [List.map_map, List.map_map]
    exact (hloadOutputs store htheirs).symm

/-! ## Steps -/

namespace Controller

theorem sameVariables_evaluateRules : (evaluateRules (α := α)).Moves SameVariables := by
  intro c
  have hframes := sameFrames_evaluateRules c
  have halike := alike_evaluateRules c
  have houtputs := congrArg (List.map fun o : OutputVariable α => o.toVariable) hframes.2
  rw [List.map_map, List.map_map] at houtputs
  exact ⟨halike.1, congrArg Outline.name halike.2, hframes.1, houtputs⟩

theorem Configured.sameVariables {c d : Controller α} (h : c.Configured d) : c.SameVariables d := by
  have houtputs := congrArg (List.map fun o : OutputVariable α => o.toVariable) h.outputs
  rw [List.map_map, List.map_map] at houtputs
  exact ⟨h.config, h.name, h.inputs, houtputs⟩

end Controller

namespace SharedController

theorem agrees_evaluate (division : Division) (values : List (String × α)) :
    Agrees (evaluate division values) (Controller.evaluate division values) := by
  unfold evaluate Controller.evaluate
  refine Action.Shows.bind ?_ fun _ => Action.Shows.bind ?_ fun _ => ?_
  · refine Action.Shows.forEach ?_ values
    intro ⟨name, x⟩
    exact agrees_fuzzify division name x
  · exact agrees_apart Controller.sameVariables_evaluateRules
  · exact Action.Shows.ask fun _ => rfl

/-- Carries out a step on the terms in the store. -/
def run : Step α → Action (SharedController α) Unit
  | .fuzzify name r => fuzzify r.division name r.value
  | .evaluate division values => do let _ ← evaluate division values
  | step => apart step.run

theorem agrees_run (step : Step α) : Agrees (run step) step.run := by
  have hsets (hstep : step.Sets) : Agrees (apart step.run) step.run :=
    agrees_apart ((Controller.configured_step hstep).mono fun _ _ h => h.sameVariables)
  cases step with
  | fuzzify name r => exact agrees_fuzzify r.division name r.value
  | evaluate division values => exact (agrees_evaluate division values).bind fun _ => .give ()
  | evaluateRules => exact agrees_apart Controller.sameVariables_evaluateRules
  | _ => exact hsets trivial

/-- Where no term is held twice, terms in a store are terms that variables own: a run of steps shows
the same state, gives the same notices and ends with the same answer or fault. -/
theorem agrees_steps (steps : List (Step α)) :
    Agrees (Action.forEach steps run) (Action.forEach steps Step.run) :=
  .forEach agrees_run steps

end SharedController

end FuzzyInference
