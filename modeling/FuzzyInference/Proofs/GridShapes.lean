import FuzzyInference.Proofs.Sampling

/-!
# Grids and samples that fit each other

After any sequence of operations on an output, its grid has as many points and heights as the output
asks for, or there is no grid.  Where the output counts as discretized, each term has as many
samples, so a rule always combines two slices of one length.  An operation that fails and that makes
one change only has changed nothing.
-/

namespace FuzzyInference

variable {α : Type}

/-! ## Slices -/

section Slices

variable {combine : α → α → α} {samples : List α} {start stop : Nat}

/-- An overlay combines the slice of the samples with the slice of the heights. -/
theorem Grid.extract_overlay (combine : α → α → α) (samples : List α) (start stop : Nat)
    (grid : Grid α) : (grid.overlay combine samples start stop).ys.extract start (stop + 1) =
      List.zipWith combine (samples.extract start (stop + 1))
        (grid.ys.extract start (stop + 1)) := by
  rw [List.extract_eq_take_drop, List.extract_eq_take_drop, List.extract_eq_take_drop,
    ← List.take_zipWith, ← List.drop_zipWith]
  refine List.ext_getElem? fun j => ?_
  rw [List.getElem?_take, List.getElem?_take]
  split
  · have hreach : start ≤ start + j ∧ start + j ≤ stop := by omega
    rw [List.getElem?_drop, List.getElem?_drop, getElem?_overlay, List.getElem?_zipWith]
    simp only [if_pos hreach]
    cases samples[start + j]? with
    | none => rfl
    | some sample => cases grid.ys[start + j]? <;> rfl
  · rfl

theorem Grid.getElem?_overlay_outside (grid : Grid α) (hlength : samples.length = grid.ys.length)
    {j : Nat} (hj : ¬ (start ≤ j ∧ j ≤ stop)) :
    (grid.overlay combine samples start stop).ys[j]? = grid.ys[j]? := by
  rw [getElem?_overlay]
  simp only [if_neg hj, Option.map_id']
  rcases Nat.lt_or_ge j samples.length with hlt | hge
  · rw [List.getElem?_eq_getElem hlt, Option.bind_some]
  · rw [List.getElem?_eq_none hge, Option.bind_none, List.getElem?_eq_none (hlength ▸ hge)]

end Slices

/-! ## Lengths -/

namespace OutputVariable

/-- The grid, if there is one, has as many points and heights as the variable asks for.  Once the
variable counts as discretized, each term has as many samples. -/
structure Shaped (o : OutputVariable α) : Prop where
  resolution_pos : 0 < o.resolution
  lengths : o.grid = none ∨ ∃ grid, o.grid = some grid ∧
    grid.xs.length = o.resolution ∧ grid.ys.length = o.resolution
  samples : o.isDiscretized = true → ∀ t ∈ o.terms, t.samples.length = o.resolution

variable {o : OutputVariable α}

theorem shaped_iff : o.Shaped ↔ 0 < o.resolution ∧ o.Gridded ∧ o.Spanned := by
  constructor
  · intro h
    refine ⟨h.resolution_pos, fun grid hgrid => ?_, fun grid hgrid => ?_⟩
    all_goals
      rcases h.lengths with hnone | ⟨found, hfound, hxs, hys⟩
      · cases hnone.symm.trans hgrid
      · obtain rfl := Option.some.inj (hfound.symm.trans hgrid)
        assumption
  · rintro ⟨hpos, hgridded, hspanned⟩
    refine ⟨hpos, ?_, length_samples_of_isDiscretized⟩
    cases hgrid : o.grid with
    | none => exact .inl rfl
    | some grid => exact .inr ⟨grid, rfl, hspanned grid hgrid, hgridded grid hgrid⟩

theorem Shaped.full (ho : o.Shaped) (hready : o.isDiscretized = true) : o.Full :=
  ⟨(shaped_iff.mp ho).2.1, ho.samples hready⟩

end OutputVariable

/-! ## Changes made as a whole or not at all -/

namespace Action

variable {σ τ β : Type}

/-- Where the action fails, the state stays as it was. -/
def AllOrNothing (act : Action σ β) : Prop := ∀ s f, act.Fails s f → (act s).state = s

theorem allOrNothing_change (f : σ → Except Fault σ) : AllOrNothing (change f) := by
  intro s fault hfault
  unfold Fails at hfault
  cases hs : f s with
  | error e => rw [change_of_error hs]
  | ok s' =>
    rw [change_of_ok hs] at hfault
    cases hfault

theorem AllOrNothing.within {get : σ → τ} {set : τ → σ → σ} {act : Action τ β}
    (h : AllOrNothing act) (hset : ∀ s, set (get s) s = s) : AllOrNothing (within get set act) := by
  intro s f hfault
  have hpart : (act (get s)).state = get s := h (get s) f hfault
  show set (act (get s)).state s = s
  rw [hpart, hset]

end Action

theorem Variable.allOrNothing_onTerm {β : Type} (index : Int) {act : Action (Term α) β}
    (h : act.AllOrNothing) : (onTerm index act).AllOrNothing := by
  intro v f hfault
  unfold Action.Fails onTerm at hfault
  unfold onTerm
  cases ht : v.term index with
  | error e => rfl
  | ok t =>
    rw [ht] at hfault
    -- the term is put back where it was found
    have hput : v.terms.set index.toNat t = v.terms := by
      obtain ⟨hlt, hget⟩ := List.getElem?_eq_some_iff.mp (Variable.term_eq_ok.mp ht).2
      rw [← hget, List.set_getElem_self]
    show { v with terms := v.terms.set index.toNat (act t).state } = v
    rw [h t f hfault, hput]

variable [Scalar α]

theorem OutputVariable.allOrNothing_defuzzify :
    (do let _ ← defuzzify : Action (OutputVariable α) Unit).AllOrNothing := by
  intro o f hfault
  rw [Action.bind_eq] at hfault ⊢
  unfold Action.Fails Action.andThen defuzzify at hfault
  unfold Action.andThen defuzzify
  cases hgrid : o.grid? with
  | error e => rfl
  | ok grid =>
    rw [hgrid] at hfault
    cases hfault

theorem TermOperation.allOrNothing_run (operation : TermOperation α) :
    operation.run.AllOrNothing := by
  cases operation with
  | addPoint _ | setPoints _ | movePoint _ _ _ | takeDegree _ | clearSamples _ | setSample _ _
  | rename _ => exact Action.allOrNothing_change _

/-- The operation makes one change: it goes neither from term to term nor from height to height. -/
def OutputOperation.Single : OutputOperation α → Prop
  | .fuzzify _ | .fill _ _ => False
  | _ => True

theorem OutputOperation.allOrNothing_run {operation : OutputOperation α} (h : operation.Single) :
    operation.run.AllOrNothing := by
  cases operation with
  | fuzzify _ | fill _ _ => exact h.elim
  | addTerm _ | replaceTerms _ | reset | setY _ _ | setResolution _ | setMethod _ | setDefault _ =>
    exact Action.allOrNothing_change _
  | discretize =>
    show (OutputVariable.buildGrid (α := α)).AllOrNothing
    rw [OutputVariable.buildGrid_eq]
    exact Action.allOrNothing_change _
  | appendTerm _ => exact (Action.allOrNothing_change _).within fun _ => rfl
  | onTerm index operation =>
    exact (Variable.allOrNothing_onTerm index operation.allOrNothing_run).within fun _ => rfl
  | defuzzify => exact OutputVariable.allOrNothing_defuzzify

/-! ## Operations and rules -/

/-- Accumulating the rule combines the activated samples of its term, from the first cell that it
reaches to the last, with as many heights, and it leaves all other heights. -/
def Rule.CombinesSlices (operators : Operators) (r : Rule α) (o : OutputVariable α) : Prop :=
  ∀ first last samples, r.stretch o = .ok (first, last, samples) →
    ∃ grid activated existing ys, o.grid = some grid ∧
      activated = (samples.extract first (last + 1)).map (operators.activation.apply r.level) ∧
      existing = grid.ys.extract first (last + 1) ∧ activated.length = existing.length ∧
      r.accumulate operators o = .ok (o.withHeights ys) ∧
      ys.extract first (last + 1) =
        List.zipWith operators.accumulation.apply activated existing ∧
      ∀ j, ¬ (first ≤ j ∧ j ≤ last) → ys[j]? = grid.ys[j]?

namespace OutputVariable

variable {o o' : OutputVariable α} {operators : Operators} {r : Rule α}

theorem Regrids.shaped (h : o.Regrids o') (ho : o.Shaped) : o'.Shaped := by
  obtain ⟨hpos, hgridded, hspanned⟩ := shaped_iff.mp ho
  exact shaped_iff.mpr ⟨h.resolution_pos hpos, h.gridded hgridded, h.spanned hspanned⟩

theorem shaped_of_create {name : String} {terms : List (Term α)}
    {resolution method defaultValue : Setting α}
    (h : create name terms resolution method defaultValue = .ok o) : o.Shaped := by
  have hnone := grid_of_create h
  exact shaped_iff.mpr ⟨resolution_pos_of_create h, gridded_of_none hnone, spanned_of_none hnone⟩

theorem sameSize_of_fresh (h : o'.fresh = o.fresh) : o.SameSize o' := by
  have hsize (p : OutputVariable α) :
      p.fresh.grid.map (fun grid => (grid.xs, grid.ys.length)) =
        p.grid.map fun grid => (grid.xs, grid.ys.length) := by
    unfold fresh
    cases p.grid with
    | none => rfl
    | some grid => simp
  have hresolution : o'.fresh.resolution = o.fresh.resolution := congrArg (·.resolution) h
  exact ⟨hresolution, by rw [← hsize o', h, hsize o]⟩

theorem Shaped.accumulate (ho : o.Shaped) (hready : o.isDiscretized = true)
    (h : r.accumulate operators o = .ok o') : o'.Shaped ∧ o'.isDiscretized = true := by
  have hfresh := Rule.fresh_of_accumulate (ho.full hready) h
  refine ⟨(Regrids.kept (sameSize_of_fresh hfresh)).shaped ho, ?_⟩
  rw [← isDiscretized_fresh, hfresh, isDiscretized_fresh, hready]

/-- A discretized output stays one while rules are accumulated in it. -/
theorem Shaped.foldlM_accumulate {rules : List (Rule α)} (ho : o.Shaped)
    (hready : o.isDiscretized = true)
    (h : rules.foldlM (fun p r => r.accumulate operators p) o = .ok o') :
    o'.Shaped ∧ o'.isDiscretized = true := by
  induction rules generalizing o with
  | nil =>
    rw [← Except.ok.inj h]
    exact ⟨ho, hready⟩
  | cons r rules ih =>
    obtain ⟨p, hfirst, hrest⟩ := bind_eq_ok.mp h
    obtain ⟨hp, hstill⟩ := ho.accumulate hready hfirst
    exact ih hp hstill hrest

end OutputVariable

theorem Rule.combinesSlices {o : OutputVariable α} (ho : o.Shaped)
    (hready : o.isDiscretized = true) (operators : Operators) (r : Rule α) :
    r.CombinesSlices operators o := by
  intro first last samples hstretch
  obtain ⟨hsome, -⟩ := Bool.and_eq_true_iff.mp hready
  obtain ⟨grid, hgrid⟩ := Option.isSome_iff_exists.mp hsome
  have hlength : samples.length = grid.ys.length :=
    (length_of_stretch (ho.samples hready) hstretch).trans ((ho.full hready).1 grid hgrid).symm
  refine ⟨grid, _, _, r.lift operators o grid.ys, hgrid, rfl, rfl, ?_, ?_, ?_, ?_⟩
  · rw [List.length_map, List.extract_eq_take_drop, List.extract_eq_take_drop, List.length_take,
      List.length_take, List.length_drop, List.length_drop, hlength]
  · have haccumulate : r.accumulate operators (o.withHeights grid.ys) =
        (r.stretch o).map fun _ => o.withHeights (r.lift operators o grid.ys) :=
      accumulate_withHeights hsome
    rwa [OutputVariable.withHeights_self hgrid, hstretch] at haccumulate
  · rw [lift_of_stretch hstretch, List.zipWith_map_left]
    exact Grid.extract_overlay _ samples first last ⟨[], grid.ys⟩
  · intro j hj
    rw [lift_of_stretch hstretch]
    exact Grid.getElem?_overlay_outside ⟨[], grid.ys⟩ hlength hj

namespace OutputVariable

/-- After any sequence of operations, the grid and the samples of an output have the lengths that it
asks for; rules that are accumulated in it when it is discretized combine slices of equal lengths,
one rule after another; and an operation that makes one change and fails changes nothing. -/
theorem shaped_after {name : String} {terms : List (Term α)}
    {resolution method defaultValue : Setting α} {o : OutputVariable α}
    (hcreate : create name terms resolution method defaultValue = .ok o)
    (operations : List (OutputOperation α)) :
    (o.after operations).Shaped ∧
    ((o.after operations).isDiscretized = true → ∀ operators (rules : List (Rule α)) p,
      rules.foldlM (fun p r => r.accumulate operators p) (o.after operations) = .ok p →
        p.Shaped ∧ p.isDiscretized = true ∧ ∀ r : Rule α, r.CombinesSlices operators p) ∧
    ∀ (operation : OutputOperation α) f, operation.Single →
      operation.run.Fails (o.after operations) f →
        (operation.run (o.after operations)).state = o.after operations := by
  have hshaped : (o.after operations).Shaped := by
    induction operations using List.reverseRecOn with
    | nil => exact shaped_of_create hcreate
    | append_singleton operations operation ih =>
      rw [after_concat]
      exact (operation.run_regrids _).shaped ih
  refine ⟨hshaped, fun hready operators rules p h => ?_, fun operation f hsingle hfails => ?_⟩
  · obtain ⟨hp, hstill⟩ := hshaped.foldlM_accumulate hready h
    exact ⟨hp, hstill, Rule.combinesSlices hp hstill operators⟩
  · exact OutputOperation.allOrNothing_run hsingle _ f hfails

/-- The grid is built for three points; asking for none fails. -/
def threePoints : List (OutputOperation Rat) :=
  [.setResolution (.integer 3), .discretize, .setResolution (.integer 0)]

/-- A rule that concludes on the only term. -/
def concludeY : Rule Rat := ⟨.is ⟨"x", 0, false⟩, ⟨"y", 0, 1⟩, 1 / 2⟩

theorem shaped_after_three : (single.after threePoints).Shaped ∧
    (single.after threePoints).isDiscretized = true ∧
    concludeY.stretch (single.after threePoints) = .ok (0, 2, [0, 1 / 2, 1]) ∧
    concludeY.CombinesSlices ⟨.minMax, .minimum, .maximum⟩ (single.after threePoints) ∧
    ((OutputOperation.setResolution (.integer 0)).run (single.after threePoints)).state =
      single.after threePoints := by
  have hready : (single.after threePoints).isDiscretized = true := by decide +kernel
  obtain ⟨hshaped, hrules, hfailed⟩ := shaped_after create_single threePoints
  obtain ⟨-, -, hcombines⟩ := hrules hready ⟨.minMax, .minimum, .maximum⟩ [] _ rfl
  exact ⟨hshaped, hready, by decide +kernel, hcombines concludeY, hfailed _ _ trivial rfl⟩

end OutputVariable

/-- Every output of a reachable controller has the lengths that it asks for. -/
theorem Controller.Reachable.shaped {c : Controller α} (h : c.Reachable) :
    ∀ o ∈ c.outputs, o.Shaped := fun o ho =>
  OutputVariable.shaped_iff.mpr ⟨h.resolution_pos o ho, h.gridded o ho, h.spanned o ho⟩

end FuzzyInference
