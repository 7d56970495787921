import FuzzyInference.Proofs.Evaluation
import FuzzyInference.Proofs.Outline
import FuzzyInference.Proofs.WellFormed

/-!
# Accumulated sets, cell by cell

Rules change an accumulated set by slices.  Seen from one cell, each rule that reaches the cell adds
one activated height, and the others do not matter.
-/

namespace FuzzyInference

variable {α : Type} {o : OutputVariable α}

/-! ## What a rule does to a grid -/

/-- The output with other heights on its grid. -/
def OutputVariable.withHeights (o : OutputVariable α) (ys : List α) : OutputVariable α :=
  { o with grid := o.grid.map fun grid => { grid with ys } }

theorem OutputVariable.withHeights_self {grid : Grid α} (h : o.grid = some grid) :
    o.withHeights grid.ys = o := by
  unfold withHeights
  rw [h, Option.map_some, ← h]

theorem Grid.getElem?_overlay (combine : α → α → α) (samples : List α) (start stop : Nat)
    (grid : Grid α) (j : Nat) :
    (grid.overlay combine samples start stop).ys[j]? =
      samples[j]?.bind fun sample => grid.ys[j]?.map fun y =>
        if start ≤ j ∧ j ≤ stop then combine sample y else y := by
  unfold overlay
  rw [List.getElem?_map, List.getElem?_zipIdx, Nat.zero_add, List.zip, List.getElem?_zipWith]
  cases samples[j]? with
  | none => rfl
  | some sample =>
    cases grid.ys[j]? with
    | none => rfl
    | some y => rfl

variable [Scalar α] {operators : Operators} {r : Rule α} {rules : List (Rule α)} {ys : List α}
  {j : Nat}

namespace Rule

/-- The first and the last cell that a rule reaches on the grid of an output, and the samples of the
term that it concludes. -/
def stretch (r : Rule α) (o : OutputVariable α) : Except Fault (Nat × Nat × List α) := do
  let first ← r.start o
  let last ← r.stop o
  let t ← o.term r.conclusion.term
  return (clip o.resolution first, clip o.resolution last, t.samples)

/-- The activated height of the concluded term in a cell that the rule reaches. -/
def heightAt? (activation : Activation) (r : Rule α) (o : OutputVariable α) (j : Nat) : Option α :=
  match r.stretch o with
  | .ok (first, last, samples) =>
    if first ≤ j ∧ j ≤ last then samples[j]?.map (activation.apply r.level) else none
  | .error _ => none

/-- The heights after the rule has been accumulated on the grid of an output. -/
def lift (operators : Operators) (o : OutputVariable α) (ys : List α) (r : Rule α) : List α :=
  match r.stretch o with
  | .ok (first, last, samples) =>
    (Grid.overlay
      (fun sample => operators.accumulation.apply (operators.activation.apply r.level sample))
      samples first last ⟨[], ys⟩).ys
  | .error _ => ys

theorem lift_of_stretch {o : OutputVariable α} {first last : Nat} {samples : List α}
    (h : r.stretch o = .ok (first, last, samples)) :
    r.lift operators o ys = (Grid.overlay
      (fun sample => operators.accumulation.apply (operators.activation.apply r.level sample))
      samples first last ⟨[], ys⟩).ys := by
  unfold lift
  rw [h]

-- The reach of a rule is a matter of the abscissas of the grid.
theorem stretch_withHeights (r : Rule α) (o : OutputVariable α) (ys : List α) :
    r.stretch (o.withHeights ys) = r.stretch o := by
  cases o with | mk v crisp default resolution method grid =>
  cases grid with
  | none => rfl
  | some grid => rfl

theorem heightAt?_withHeights (activation : Activation) (r : Rule α) (o : OutputVariable α)
    (ys : List α) (j : Nat) :
    r.heightAt? activation (o.withHeights ys) j = r.heightAt? activation o j := by
  unfold heightAt?
  rw [stretch_withHeights]

-- Where a rule reaches is found first, and the overlay is the only change.
theorem accumulate_eq (r : Rule α) (o : OutputVariable α) :
    r.accumulate operators o =
      r.stretch o >>= fun s => o.grid? >>= fun grid =>
        .ok { o with grid := some (grid.overlay (fun sample =>
          operators.accumulation.apply (operators.activation.apply r.level sample))
          s.2.2 s.1 s.2.1) } := by
  unfold accumulate stretch
  cases r.start o with
  | error f => rfl
  | ok first =>
    cases r.stop o with
    | error f => rfl
    | ok last =>
      cases o.term r.conclusion.term with
      | error f => rfl
      | ok t => rfl

theorem accumulate_withHeights (hgrid : o.grid.isSome = true) :
    r.accumulate operators (o.withHeights ys) =
      (r.stretch o).map fun _ => o.withHeights (r.lift operators o ys) := by
  obtain ⟨grid, hsome⟩ := Option.isSome_iff_exists.mp hgrid
  have hself : (o.withHeights ys).grid? = .ok ⟨grid.xs, ys⟩ := by
    unfold OutputVariable.grid? OutputVariable.withHeights
    rw [hsome]
    rfl
  rw [accumulate_eq, stretch_withHeights, hself]
  unfold lift
  cases r.stretch o with
  | error f => rfl
  | ok s =>
    unfold OutputVariable.withHeights
    rw [hsome]
    rfl

theorem foldlM_accumulate {o' : OutputVariable α} (hgrid : o.grid.isSome = true) :
    rules.foldlM (fun o r => r.accumulate operators o) (o.withHeights ys) = .ok o' ↔
      (∀ r ∈ rules, ∃ s, r.stretch o = .ok s) ∧
        o' = o.withHeights (rules.foldl (lift operators o) ys) := by
  -- on the rules; the heights change from one rule to the next, the reach of each does not
  induction rules generalizing ys with
  | nil =>
    rw [List.foldlM_nil, List.foldl_nil]
    constructor
    · intro h
      exact ⟨fun _ hr => absurd hr List.not_mem_nil, (Except.ok.inj h).symm⟩
    · rintro ⟨-, rfl⟩
      rfl
  | cons r rules ih =>
    rw [List.foldlM_cons, accumulate_withHeights hgrid, map_bind, List.forall_mem_cons,
      List.foldl_cons, bind_eq_ok]
    constructor
    · rintro ⟨s, hs, hrest⟩
      obtain ⟨hall, ho'⟩ := ih.mp hrest
      exact ⟨⟨⟨s, hs⟩, hall⟩, ho'⟩
    · rintro ⟨⟨⟨s, hs⟩, hall⟩, ho'⟩
      exact ⟨s, hs, ih.mpr ⟨hall, ho'⟩⟩

end Rule

/-! ## Cells -/

namespace Rule

-- Every term of a discretized output has as many samples as the output has cells.
theorem length_of_stretch (hterms : ∀ t ∈ o.terms, t.samples.length = o.resolution)
    {first last : Nat} {samples : List α} (h : r.stretch o = .ok (first, last, samples)) :
    samples.length = o.resolution := by
  unfold stretch at h
  obtain ⟨_, -, h⟩ := bind_eq_ok.mp h
  obtain ⟨_, -, h⟩ := bind_eq_ok.mp h
  obtain ⟨t, ht, h⟩ := bind_eq_ok.mp h
  obtain ⟨-, hsamples⟩ := Prod.mk.inj (Except.ok.inj h)
  rw [← (Prod.mk.inj hsamples).2]
  have hmem : t ∈ o.terms :=
    List.mem_of_getElem? (Variable.term_eq_ok.mp ht).2
  exact hterms t hmem

theorem getElem?_lift (hterms : ∀ t ∈ o.terms, t.samples.length = o.resolution)
    (hr : ∃ s, r.stretch o = .ok s) (hj : j < o.resolution) :
    (r.lift operators o ys)[j]? = ys[j]?.map fun y =>
      (r.heightAt? operators.activation o j).elim y (operators.accumulation.apply · y) := by
  obtain ⟨⟨first, last, samples⟩, hs⟩ := hr
  have hlength : j < samples.length := by rwa [length_of_stretch hterms hs]
  have hsample := List.getElem?_eq_getElem hlength
  unfold lift heightAt?
  rw [hs]
  dsimp only
  rw [Grid.getElem?_overlay, hsample, Option.bind_some, Option.map_some]
  -- a place outside the reach of the rule keeps its height
  by_cases hreach : first ≤ j ∧ j ≤ last
  · simp only [if_pos hreach]
    rfl
  · simp only [if_neg hreach]
    rfl

theorem getElem?_lift_of_le (hterms : ∀ t ∈ o.terms, t.samples.length = o.resolution)
    (hr : ∃ s, r.stretch o = .ok s) (hj : o.resolution ≤ j) :
    (r.lift operators o ys)[j]? = none := by
  obtain ⟨⟨first, last, samples⟩, hs⟩ := hr
  rw [lift_of_stretch hs, Grid.getElem?_overlay,
    List.getElem?_eq_none (by rw [length_of_stretch hterms hs]; exact hj), Option.bind_none]

theorem getElem?_foldl_lift (hterms : ∀ t ∈ o.terms, t.samples.length = o.resolution)
    (hrules : ∀ r ∈ rules, ∃ s, r.stretch o = .ok s) (hj : j < o.resolution) :
    (rules.foldl (lift operators o) ys)[j]? = ys[j]?.map fun y =>
      (rules.filterMap (·.heightAt? operators.activation o j)).foldl
        (fun y a => operators.accumulation.apply a y) y := by
  induction rules generalizing ys with
  | nil => simp
  | cons r rules ih =>
    obtain ⟨hr, hrest⟩ := List.forall_mem_cons.mp hrules
    rw [List.foldl_cons, ih hrest, getElem?_lift hterms hr hj, Option.map_map, List.filterMap_cons]
    congr 1
    funext y
    cases r.heightAt? operators.activation o j with
    | none => rfl
    | some a => rfl

theorem getElem?_foldl_lift_of_le (hterms : ∀ t ∈ o.terms, t.samples.length = o.resolution)
    (hrules : ∀ r ∈ rules, ∃ s, r.stretch o = .ok s) (hj : o.resolution ≤ j) :
    (rules.foldl (lift operators o) ys)[j]? = if rules = [] then ys[j]? else none := by
  induction rules generalizing ys with
  | nil => rfl
  | cons r rules ih =>
    obtain ⟨hr, hrest⟩ := List.forall_mem_cons.mp hrules
    rw [List.foldl_cons, ih hrest, getElem?_lift_of_le hterms hr hj, ite_self,
      if_neg (List.cons_ne_nil r rules)]

/-- Whether the rule concludes on the output of a name. -/
def concludesOn (name : String) (r : Rule α) : Bool := name == r.conclusion.name

/-- What the rules contribute to a cell of an output: the activated heights of those that conclude
on the output and reach the cell. -/
def contributions (activation : Activation) (rules : List (Rule α)) (o : OutputVariable α)
    (j : Nat) : List α :=
  (rules.filter (·.concludesOn o.name)).filterMap (·.heightAt? activation o j)

theorem contributions_withHeights (activation : Activation) (rules : List (Rule α))
    (o : OutputVariable α) (ys : List α) (j : Nat) :
    contributions activation rules (o.withHeights ys) j = contributions activation rules o j := by
  unfold contributions
  simp only [heightAt?_withHeights]
  rfl

end Rule

/-- The output has a grid without heights, and its terms are sampled on the whole of it. -/
structure OutputVariable.Cleared (o : OutputVariable α) (grid : Grid α) : Prop where
  built : o.grid = some grid
  heights : ∀ y ∈ grid.ys, y = 0
  samples : ∀ t ∈ o.terms, t.samples.length = o.resolution

theorem OutputVariable.cleared_of_prepare {o' : OutputVariable α}
    (h : Controller.prepare o = .ok o') : ∃ grid, o.grid = some grid ∧
      o' = o.withHeights (grid.ys.map fun _ => 0) ∧
      o'.Cleared ⟨grid.xs, grid.ys.map fun _ => 0⟩ := by
  obtain ⟨hready, grid, hgrid, rfl⟩ := Controller.prepare_eq_ok.mp h
  obtain ⟨-, hterms⟩ := Bool.and_eq_true_iff.mp hready
  refine ⟨grid, hgrid, ?_, rfl, ?_, ?_⟩
  · unfold withHeights
    rw [hgrid]
    rfl
  · intro y hy
    obtain ⟨_, -, rfl⟩ := List.mem_map.mp hy
    rfl
  · intro t ht
    exact beq_iff_eq.mp (List.all_eq_true.mp hterms t ht)

theorem OutputVariable.Cleared.exists_stretch {grid : Grid α} {o' : OutputVariable α}
    (ho : o.Cleared grid)
    (h : rules.foldlM (fun o r => r.accumulate operators o) o = .ok o') :
    ∀ r ∈ rules, ∃ s, r.stretch o = .ok s := by
  rw [← withHeights_self ho.built, Rule.foldlM_accumulate (by rw [ho.built]; rfl)] at h
  exact h.1

-- Rules that are accumulated on a cleared output fold their heights into every cell.
theorem OutputVariable.Cleared.foldlM_accumulate {grid : Grid α} {o' : OutputVariable α}
    (ho : o.Cleared grid)
    (h : rules.foldlM (fun o r => r.accumulate operators o) o = .ok o') :
    ∃ ys, o' = o.withHeights ys ∧ ∀ j < o.resolution, ys[j]? = grid.ys[j]?.map fun _ =>
      (rules.filterMap (·.heightAt? operators.activation o j)).foldl
        (fun y a => operators.accumulation.apply a y) 0 := by
  rw [← withHeights_self ho.built, Rule.foldlM_accumulate (by rw [ho.built]; rfl)] at h
  refine ⟨_, h.2, fun j hj => ?_⟩
  rw [Rule.getElem?_foldl_lift ho.samples h.1 hj]
  cases hy : grid.ys[j]? with
  | none => rfl
  | some y => rw [ho.heights y (List.mem_of_getElem? hy), Option.map_some, Option.map_some]

namespace Rule

/-! ## Several outputs -/

theorem name_of_accumulate {o' : OutputVariable α} (h : r.accumulate operators o = .ok o') :
    o'.name = o.name := congrArg (fun p => p.1.1) (OutputVariable.alike_accumulate h)

theorem name_of_foldlM_accumulate {o' : OutputVariable α}
    (h : rules.foldlM (fun o r => r.accumulate operators o) o = .ok o') : o'.name = o.name := by
  induction rules generalizing o with
  | nil => rw [← Except.ok.inj h]
  | cons r rules ih =>
    obtain ⟨o₁, hfirst, hrest⟩ := bind_eq_ok.mp h
    rw [ih hrest, name_of_accumulate hfirst]

theorem conclude_cons {rest : List (OutputVariable α)} :
    r.conclude operators (o :: rest) =
      if r.concludesOn o.name = true then (r.accumulate operators o).map (· :: rest)
      else (r.conclude operators rest).map (o :: ·) := rfl

-- The rules on the first output work on it alone, whatever rules stand between them.
theorem foldlM_conclude_cons {name : String} (hname : o.name = name)
    {rest outputs : List (OutputVariable α)} :
    rules.foldlM (conclude operators) (o :: rest) = .ok outputs ↔ ∃ o' rest',
      (rules.filter (·.concludesOn name)).foldlM (fun o r => r.accumulate operators o) o = .ok o' ∧
      (rules.filter (!·.concludesOn name)).foldlM (conclude operators) rest = .ok rest' ∧
      outputs = o' :: rest' := by
  -- on the rules: each one either changes the first output or leaves it to the rest
  induction rules generalizing o rest with
  | nil =>
    constructor
    · intro h
      exact ⟨o, rest, rfl, rfl, (Except.ok.inj h).symm⟩
    · rintro ⟨o', rest', ho, hrest, rfl⟩
      obtain rfl := Except.ok.inj ho
      obtain rfl := Except.ok.inj hrest
      rfl
  | cons r rules ih =>
    rw [List.foldlM_cons, conclude_cons, hname]
    by_cases hr : r.concludesOn name = true
    · rw [if_pos hr, List.filter_cons_of_pos hr, List.filter_cons_of_neg (by simp [hr]), map_bind,
        bind_eq_ok, List.foldlM_cons]
      constructor
      · rintro ⟨o₁, hfirst, h⟩
        obtain ⟨o', rest', ho, hrest, rfl⟩ := (ih ((name_of_accumulate hfirst).trans hname)).mp h
        exact ⟨o', rest', bind_eq_ok.mpr ⟨o₁, hfirst, ho⟩, hrest, rfl⟩
      · rintro ⟨o', rest', ho, hrest, rfl⟩
        obtain ⟨o₁, hfirst, ho⟩ := bind_eq_ok.mp ho
        exact ⟨o₁, hfirst,
          (ih ((name_of_accumulate hfirst).trans hname)).mpr ⟨o', rest', ho, hrest, rfl⟩⟩
    · rw [if_neg hr, List.filter_cons_of_neg hr, List.filter_cons_of_pos (by simp [hr]), map_bind,
        bind_eq_ok, List.foldlM_cons]
      constructor
      · rintro ⟨rest₁, hfirst, h⟩
        obtain ⟨o', rest', ho, hrest, rfl⟩ := (ih hname).mp h
        exact ⟨o', rest', ho, bind_eq_ok.mpr ⟨rest₁, hfirst, hrest⟩, rfl⟩
      · rintro ⟨o', rest', ho, hrest, rfl⟩
        obtain ⟨rest₁, hfirst, hrest⟩ := bind_eq_ok.mp hrest
        exact ⟨rest₁, hfirst, (ih hname).mpr ⟨o', rest', ho, hrest, rfl⟩⟩

theorem foldlM_conclude_nil {outputs : List (OutputVariable α)} :
    rules.foldlM (conclude operators) [] = .ok outputs ↔ rules = [] ∧ outputs = [] := by
  cases rules with
  | nil =>
    constructor
    · intro h
      exact ⟨rfl, (Except.ok.inj h).symm⟩
    · rintro ⟨-, rfl⟩
      rfl
  | cons r rules =>
    constructor
    · intro h
      obtain ⟨_, hfirst, -⟩ := bind_eq_ok.mp h
      cases hfirst
    · rintro ⟨h, -⟩
      cases h

theorem find?_foldlM_conclude {name : String} {outputs outputs' : List (OutputVariable α)}
    (h : rules.foldlM (conclude operators) outputs = .ok outputs')
    (ho : outputs.find? (·.name == name) = some o) :
    ∃ o', outputs'.find? (·.name == name) = some o' ∧
      (rules.filter (·.concludesOn name)).foldlM (fun o r => r.accumulate operators o) o =
        .ok o' := by
  -- on the outputs: what the rules do to the first one can be told apart from the rest
  induction outputs generalizing rules outputs' with
  | nil => cases ho
  | cons first rest ih =>
    obtain ⟨first', rest', hfirst, hrest, rfl⟩ := (foldlM_conclude_cons rfl).mp h
    rw [List.find?_cons] at ho ⊢
    rw [name_of_foldlM_accumulate hfirst]
    by_cases hfound : (first.name == name) = true
    · rw [hfound] at ho ⊢
      obtain rfl := Option.some.inj ho
      rw [beq_iff_eq.mp hfound] at hfirst
      exact ⟨first', rfl, hfirst⟩
    · rw [Bool.not_eq_true] at hfound
      rw [hfound] at ho ⊢
      obtain ⟨o', ho', hfold⟩ := ih hrest ho
      refine ⟨o', ho', ?_⟩
      rw [List.filter_filter] at hfold
      -- no rule that concludes on the wanted output was used up by the first one
      have hsame : (rules.filter fun r => r.concludesOn name && !r.concludesOn first.name) =
          rules.filter (·.concludesOn name) := by
        apply List.filter_congr
        intro r _
        unfold concludesOn
        by_cases hr : (name == r.conclusion.name) = true
        · rw [← beq_iff_eq.mp hr, hfound]
          simp
        · simp [hr]
      rwa [hsame] at hfold

-- A rule that has concluded has found its output.
theorem exists_output_of_conclude {outputs outputs' : List (OutputVariable α)}
    (h : rules.foldlM (conclude operators) outputs = .ok outputs') (hr : r ∈ rules) :
    ∃ o, outputs.find? (·.name == r.conclusion.name) = some o := by
  -- on the outputs: a rule that does not conclude on the first one is left for the rest
  induction outputs generalizing rules outputs' with
  | nil =>
    obtain ⟨rfl, -⟩ := foldlM_conclude_nil.mp h
    cases hr
  | cons o rest ih =>
    obtain ⟨o', rest', -, hrest, -⟩ := (foldlM_conclude_cons rfl).mp h
    rw [List.find?_cons]
    by_cases hfound : r.concludesOn o.name = true
    · have hsame : (o.name == r.conclusion.name) = true := hfound
      rw [hsame]
      exact ⟨o, rfl⟩
    · rw [Bool.not_eq_true] at hfound
      have hother : (o.name == r.conclusion.name) = false := hfound
      rw [hother]
      exact ih hrest (List.mem_filter.mpr ⟨hr, by rw [hfound]; rfl⟩)

theorem exists_term_of_stretch (h : ∃ s, r.stretch o = .ok s) :
    0 ≤ r.conclusion.term ∧ r.conclusion.term < o.terms.length := by
  obtain ⟨s, hs⟩ := h
  obtain ⟨_, -, h⟩ := bind_eq_ok.mp hs
  obtain ⟨_, -, h⟩ := bind_eq_ok.mp h
  obtain ⟨t, ht, -⟩ := bind_eq_ok.mp h
  exact Variable.exists_term_iff.mp ⟨t, ht⟩

end Rule

end FuzzyInference
