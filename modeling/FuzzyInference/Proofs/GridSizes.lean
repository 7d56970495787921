import FuzzyInference.Proofs.OutputInvariants
import FuzzyInference.Proofs.Readiness

/-!
# Grids of the right size

Every operation, successful or not, leaves as many points and as many heights in each grid as its
variable asks for.  No output variable is ever without a grid point.
-/

namespace FuzzyInference

variable {α : Type}

/-! ## Sizes of grids -/

namespace OutputVariable

/-- The grid has as many points as the variable asks for. -/
def Spanned (o : OutputVariable α) : Prop :=
  ∀ grid, o.grid = some grid → grid.xs.length = o.resolution

/-- The variables ask for equally many points, and their grids have the same points and equally many
heights. -/
def SameSize (o o' : OutputVariable α) : Prop :=
  o'.resolution = o.resolution ∧
    o'.grid.map (fun grid => (grid.xs, grid.ys.length)) =
      o.grid.map fun grid => (grid.xs, grid.ys.length)

theorem SameSize.refl (o : OutputVariable α) : o.SameSize o := ⟨rfl, rfl⟩

theorem SameSize.trans {o p q : OutputVariable α} (h : o.SameSize p) (h' : p.SameSize q) :
    o.SameSize q :=
  ⟨h'.1.trans h.1, h'.2.trans h.2⟩

theorem SameSize.of_heights {o : OutputVariable α} {grid : Grid α} {ys : List α}
    (hgrid : o.grid? = .ok grid) (hlength : ys.length = grid.ys.length) :
    o.SameSize { o with grid := some { grid with ys } } := by
  refine ⟨rfl, ?_⟩
  rw [grid?_eq_ok.mp hgrid, Option.map_some, Option.map_some, hlength]

theorem SameSize.exists_grid {o o' : OutputVariable α} {grid' : Grid α} (h : o.SameSize o')
    (hgrid' : o'.grid = some grid') : ∃ grid, o.grid = some grid ∧ grid'.xs = grid.xs ∧
      grid'.ys.length = grid.ys.length := by
  have hsame := h.2
  rw [hgrid', Option.map_some] at hsame
  obtain ⟨grid, hgrid, hsame⟩ := Option.map_eq_some_iff.mp hsame.symm
  obtain ⟨hxs, hys⟩ := Prod.mk.inj hsame
  exact ⟨grid, hgrid, hxs.symm, hys.symm⟩

theorem gridded_of_none {o : OutputVariable α} (h : o.grid = none) : o.Gridded := by
  intro grid hgrid
  cases h.symm.trans hgrid

theorem spanned_of_none {o : OutputVariable α} (h : o.grid = none) : o.Spanned := by
  intro grid hgrid
  cases h.symm.trans hgrid

theorem Gridded.of_sameSize {o o' : OutputVariable α} (ho : o.Gridded) (h : o.SameSize o') :
    o'.Gridded := by
  intro grid' hgrid'
  obtain ⟨grid, hgrid, -, hlength⟩ := h.exists_grid hgrid'
  rw [hlength, h.1]
  exact ho grid hgrid

theorem Spanned.of_sameXs {o o' : OutputVariable α} (ho : o.Spanned)
    (hresolution : o'.resolution = o.resolution) (h : o'.grid.map (·.xs) = o.grid.map (·.xs)) :
    o'.Spanned := by
  intro grid' hgrid'
  rw [hgrid', Option.map_some] at h
  obtain ⟨grid, hgrid, hxs⟩ := Option.map_eq_some_iff.mp h.symm
  rw [← hxs, hresolution]
  exact ho grid hgrid

theorem sameSize_setY (index : Int) (y : α) :
    (Action.change (OutputVariable.setY · index y)).Moves SameSize := by
  refine Action.moves_change SameSize.refl fun o o' h => ?_
  obtain ⟨⟨grid, i⟩, hcell, rfl⟩ := map_eq_ok.mp h
  obtain ⟨found, hgrid, hcell⟩ := bind_eq_ok.mp hcell
  split at hcell
  · obtain ⟨rfl, rfl⟩ := Prod.mk.inj (Except.ok.inj hcell)
    exact .of_heights hgrid List.length_set
  · cases hcell

end OutputVariable

variable [Scalar α]

/-! ## Operations on an output -/

theorem resolution?_pos {value : Setting α} {n : Nat} (h : resolution? value = .ok n) : 0 < n := by
  unfold resolution? at h
  split at h
  · cases h
  · split at h
    · cases h
    · obtain rfl := Except.ok.inj h
      omega

/-- An output variable has a grid point at least. -/
theorem OutputVariable.resolution_pos_of_create {name : String} {terms : List (Term α)}
    {resolution method defaultValue : Setting α} {o : OutputVariable α}
    (h : create name terms resolution method defaultValue = .ok o) : 0 < o.resolution := by
  obtain ⟨default, -, h⟩ := bind_eq_ok.mp h
  obtain ⟨count, hcount, h⟩ := bind_eq_ok.mp h
  obtain ⟨chosen, -, h⟩ := bind_eq_ok.mp h
  obtain rfl := Except.ok.inj h
  exact resolution?_pos hcount

namespace OutputVariable

theorem grid_of_create {name : String} {terms : List (Term α)}
    {resolution method defaultValue : Setting α} {o : OutputVariable α}
    (h : create name terms resolution method defaultValue = .ok o) : o.grid = none := by
  obtain ⟨default, -, h⟩ := bind_eq_ok.mp h
  obtain ⟨count, -, h⟩ := bind_eq_ok.mp h
  obtain ⟨chosen, -, h⟩ := bind_eq_ok.mp h
  rw [← Except.ok.inj h]

/-- What an operation does with a grid: its size stays, or the grid is dropped, or a new one is
built. -/
inductive Regrids (o o' : OutputVariable α) : Prop where
  | kept (hsize : o.SameSize o')
  | dropped (hgrid : o'.grid = none) (hpoints : 0 < o.resolution → 0 < o'.resolution)
  | built (hdiscretize : o.discretize = .ok o')

end OutputVariable

open OutputVariable (SameSize Regrids)

theorem OutputOperation.run_regrids (operation : OutputOperation α) :
    operation.run.Moves Regrids := by
  have hkept {act : Action (OutputVariable α) Unit} (h : act.Moves SameSize) : act.Moves Regrids :=
    h.mono fun _ _ => .kept
  cases operation with
  | addTerm t | replaceTerms terms => exact fun _ => .dropped rfl id
  | appendTerm t | fuzzify x | onTerm index operation | setDefault value =>
    exact hkept SameSize.refl
  | discretize =>
    exact OutputVariable.moves_buildGrid (fun o => .kept (SameSize.refl o)) fun _ _ => .built
  | reset =>
    refine hkept (Action.moves_change SameSize.refl fun o o' h => ?_)
    obtain ⟨grid, hgrid, rfl⟩ := map_eq_ok.mp h
    exact .of_heights hgrid (List.length_map _)
  | setY index y => exact hkept (OutputVariable.sameSize_setY index y)
  | fill start ys =>
    exact hkept (Action.moves_forEach SameSize.refl (fun _ _ _ => SameSize.trans) fun item _ =>
      OutputVariable.sameSize_setY (start + item.2) item.1)
  | defuzzify => exact hkept (OutputVariable.moves_defuzzify fun o _ => SameSize.refl o)
  | setResolution value =>
    refine Action.moves_change (fun o => .kept (SameSize.refl o)) fun o o' h => ?_
    obtain ⟨n, hn, rfl⟩ := map_eq_ok.mp h
    exact .dropped rfl fun _ => resolution?_pos hn
  | setMethod value =>
    exact hkept (Action.moves_change_map SameSize.refl fun o _ => SameSize.refl o)

namespace OutputVariable

variable {o o' : OutputVariable α}

theorem Regrids.gridded (h : o.Regrids o') (ho : o.Gridded) : o'.Gridded := by
  cases h with
  | kept hsize => exact ho.of_sameSize hsize
  | dropped hgrid hpoints => exact gridded_of_none hgrid
  | built hdiscretize => exact gridded_discretize hdiscretize

theorem Regrids.spanned (h : o.Regrids o') (ho : o.Spanned) : o'.Spanned := by
  cases h with
  | kept hsize =>
    intro grid' hgrid'
    obtain ⟨grid, hgrid, hxs, -⟩ := hsize.exists_grid hgrid'
    rw [hxs, hsize.1]
    exact ho grid hgrid
  | dropped hgrid hpoints => exact spanned_of_none hgrid
  | built hdiscretize =>
    intro grid hgrid
    obtain ⟨hresolution, built, hbuilt, hlength, -⟩ := exists_grid_of_discretize hdiscretize
    rw [← Option.some.inj (hbuilt.symm.trans hgrid), hlength, hresolution]

theorem Regrids.resolution_pos (h : o.Regrids o') (ho : 0 < o.resolution) : 0 < o'.resolution := by
  cases h with
  | kept hsize => exact hsize.1.symm ▸ ho
  | dropped hgrid hpoints => exact hpoints ho
  | built hdiscretize => exact (exists_grid_of_discretize hdiscretize).1.symm ▸ ho

end OutputVariable

/-! ## Evaluations -/

namespace Controller

-- Rules are inferred on full grids, which stay full.
theorem full_inferRules {c : Controller α} (hc : ∀ o ∈ c.outputs, o.Full) :
    ∀ o ∈ (inferRules c).state.outputs, o.Full := by
  have haccumulate (r : Rule α) : (Action.change (r.accumulate c.operators)).Moves
      fun o o' => o.Full → o'.Full := by
    refine Action.moves_change (fun _ => id) fun o o' h ho => ?_
    have hsame := Rule.fresh_of_accumulate ho h
    exact OutputVariable.full_fresh.mp (hsame ▸ OutputVariable.full_fresh.mpr ho)
  have hinfer : (Rule.infer c.operators c.inputs).Moves fun p q =>
      True ∧ ((∀ o ∈ p.2, o.Full) → ∀ o ∈ q.2, o.Full) := by
    refine Action.moves_bind (fun _ _ _ h h' => ⟨trivial, h'.2 ∘ h.2⟩) (fun _ => ⟨trivial, id⟩)
      fun _ => Action.moves_bind (fun _ _ _ h h' => ⟨trivial, h'.2 ∘ h.2⟩)
        (fun _ => ⟨trivial, id⟩) fun s => ?_
    exact Action.moves_within (Action.moves_onFirst (fun _ => id) (haccumulate s.1))
      fun _ _ h => ⟨trivial, forall_of_forall₂ h⟩
  have hrules := Action.moves_sweep (R := fun _ _ : Rule α => True) (fun _ => trivial)
    (S := fun os os' : List (OutputVariable α) => (∀ o ∈ os, o.Full) → ∀ o ∈ os', o.Full)
    (fun _ => id) (fun _ _ _ h h' => h' ∘ h) hinfer (c.rules, c.outputs)
  exact hrules.2 hc

theorem keepsAll_gridded_evaluateRules :
    (evaluateRules (α := α)).Moves (KeepsAll OutputVariable.Gridded) := by
  have hprepare : (Action.change (prepare (α := α))).Moves fun o o' => o.Gridded → o'.Gridded :=
    Action.moves_change (fun _ => id) fun _ _ h ho => ((OutputVariable.fresh_of_prepare h).2 ho).1
  have hsettle : (settleAll (α := α)).Moves (KeepsAll OutputVariable.Gridded) :=
    keepsAll_onEach (OutputVariable.moves_defuzzify fun _ _ => id)
  intro c hc
  rw [evaluateRules_eq]
  rcases Action.leads_or_fails prepareAll c with ⟨d, _, h⟩ | ⟨f, h⟩
  · -- every output has been prepared, so all grids are full
    obtain ⟨prepared, hprepared, rfl⟩ := leads_prepareAll.mp h
    have hfull : ∀ o ∈ prepared, o.Full :=
      forall_of_forall₂ ((mapM_eq_ok.mp hprepared).imp fun o o' ho hgridded =>
        (OutputVariable.fresh_of_prepare ho).2 hgridded) hc
    have hinferred := full_inferRules (c := { c with outputs := prepared }) hfull
    rw [Action.state_bind_of_leads h]
    exact Action.state_bind (fun o ho => (hinferred o ho).1) fun _ => hsettle
  · rw [Action.state_bind_of_fails h]
    exact keepsAll_onEach hprepare c hc

-- What depends on the settings and the points of a grid alone is kept by evaluations.
theorem keepsAll_evaluateRules_of_frame {P : OutputVariable α → Prop}
    (hP : ∀ o o', o.SameFrame o' → P o → P o') : (evaluateRules (α := α)).Moves (KeepsAll P) :=
  fun c => forall_of_map_eq (fun o o' h => hP o o' h.symm) (sameFrames_evaluateRules c).2

end Controller

/-! ## Reachable controllers -/

namespace OutputVariable

theorem xs_frame (o : OutputVariable α) : o.frame.grid.map (·.xs) = o.grid.map (·.xs) :=
  Option.map_map _ _ o.grid

theorem SameFrame.xs_eq {o o' : OutputVariable α} (h : o.SameFrame o') :
    o'.grid.map (·.xs) = o.grid.map (·.xs) := by
  rw [← xs_frame, h, xs_frame]

theorem gridded_invariant : Invariant (α := α) Gridded where
  created h := gridded_of_none (grid_of_create h)
  operation operation o := (operation.run_regrids o).gridded
  setting _ hresolution hgrid ho := ho.of_sameSize ⟨hresolution, congrArg _ hgrid⟩
  evaluation := Controller.keepsAll_gridded_evaluateRules

theorem spanned_invariant : Invariant (α := α) Spanned where
  created h := spanned_of_none (grid_of_create h)
  operation operation o := (operation.run_regrids o).spanned
  setting _ hresolution hgrid ho := ho.of_sameXs hresolution (congrArg _ hgrid)
  evaluation := Controller.keepsAll_evaluateRules_of_frame fun _ _ h ho =>
    ho.of_sameXs (congrArg (·.resolution) h) h.xs_eq

theorem resolution_invariant : Invariant (α := α) fun o => 0 < o.resolution where
  created := resolution_pos_of_create
  operation operation o := (operation.run_regrids o).resolution_pos
  setting _ hresolution _ ho := hresolution.symm ▸ ho
  evaluation := Controller.keepsAll_evaluateRules_of_frame fun o o' h ho => by
    have hresolution : o'.resolution = o.resolution := congrArg (·.resolution) h
    rwa [hresolution]

end OutputVariable

namespace Controller.Reachable

variable {c : Controller α}

/-- Every grid of a reachable controller has a height for each of its cells. -/
theorem gridded (h : c.Reachable) : ∀ o ∈ c.outputs, o.Gridded :=
  OutputVariable.gridded_invariant.forall_outputs h

/-- Every grid of a reachable controller has as many points as its variable asks for. -/
theorem spanned (h : c.Reachable) : ∀ o ∈ c.outputs, o.Spanned :=
  OutputVariable.spanned_invariant.forall_outputs h

/-- Every output of a reachable controller asks for a grid point at least. -/
theorem resolution_pos (h : c.Reachable) : ∀ o ∈ c.outputs, 0 < o.resolution :=
  OutputVariable.resolution_invariant.forall_outputs h

end Controller.Reachable

end FuzzyInference
