import FuzzyInference.Proofs.Absorption
import FuzzyInference.Proofs.Accumulation
import FuzzyInference.Proofs.RankedValues
import FuzzyInference.Proofs.Readiness

/-!
# Outputs up to ranks

What inference does to the ranks of the heights of an output depends on ranks alone, be it that
rules conclude on it or that it is turned into a crisp value.  So outputs can be compared by ranks
at every step of an evaluation.
-/

namespace FuzzyInference

open Scalar
open Scalar.Ranked (rank Rank)
open List (Forall₂)

/-! ## Heights that are raised -/

section Raised

variable {ρ : Type} [LinearOrder ρ]

/-- The ranks of the heights after the cells from `first` to `last` have been raised to the
activated heights. -/
def raised (first last : Nat) (activated heights : List (Option ρ)) : List (Option ρ) :=
  (Grid.overlay (Option.map₂ max) activated first last ⟨[], heights⟩).ys

theorem getElem?_raised (first last : Nat) (activated heights : List (Option ρ)) (j : Nat) :
    (raised first last activated heights)[j]? = activated[j]?.bind fun a => heights[j]?.map fun y =>
      if first ≤ j ∧ j ≤ last then Option.map₂ max a y else y :=
  Grid.getElem?_overlay _ _ _ _ _ j

theorem raised_idem (first last : Nat) (activated heights : List (Option ρ)) :
    raised first last activated (raised first last activated heights) =
      raised first last activated heights := by
  apply List.ext_getElem?
  intro j
  simp only [getElem?_raised]
  cases activated[j]? with
  | none => rfl
  | some a =>
    cases heights[j]? with
    | none => rfl
    | some y =>
      simp only [Option.bind_some, Option.map_some]
      split_ifs
      · cases a <;> cases y <;> simp
      · rfl

theorem raised_comm (first last first' last' : Nat)
    (activated activated' heights : List (Option ρ)) :
    raised first last activated (raised first' last' activated' heights) =
      raised first' last' activated' (raised first last activated heights) := by
  apply List.ext_getElem?
  intro j
  simp only [getElem?_raised]
  cases activated[j]? with
  | none => cases activated'[j]? <;> rfl
  | some a =>
    cases activated'[j]? with
    | none => rfl
    | some a' =>
      cases heights[j]? with
      | none => rfl
      | some y =>
        simp only [Option.bind_some, Option.map_some]
        split_ifs
        · exact congrArg some (Option.map₂_left_comm max_left_comm)
        · rfl
        · rfl
        · rfl

end Raised

variable {α : Type} [Scalar α] {operators : Operators} {r : Rule α}

namespace Rule

theorem stretch_frame (r : Rule α) (o : OutputVariable α) : r.stretch o.frame = r.stretch o := by
  cases o with | mk v crisp default resolution method grid =>
  cases grid with
  | none => rfl
  | some grid => rfl

theorem stretch_congr {r' : Rule α} (h : r.conclusion.term = r'.conclusion.term)
    (o : OutputVariable α) : r.stretch o = r'.stretch o := by
  unfold stretch start stop reach
  rw [h]

-- Without a grid no cell can be found.
theorem exists_grid_of_stretch {o : OutputVariable α} {s : Nat × Nat × List α}
    (h : r.stretch o = .ok s) : ∃ grid, o.grid = some grid := by
  obtain ⟨first, hstart, -⟩ := bind_eq_ok.mp h
  obtain ⟨t, -, hpick⟩ := bind_eq_ok.mp hstart
  split at hpick
  · cases hpick
  · obtain ⟨grid, hgrid, -⟩ := bind_eq_ok.mp hpick
    exact ⟨grid, OutputVariable.grid?_eq_ok.mp hgrid⟩

end Rule

variable [Regular α]

/-! ## Outputs as ranks -/

/-- The heights of the accumulated set; none if there is no grid. -/
def OutputVariable.heights (o : OutputVariable α) : List α := (o.grid.map Grid.ys).getD []

/-- The outputs differ in the signs of zeros among the heights and crisp values alone. -/
structure OutputVariable.Same (o o' : OutputVariable α) : Prop where
  frame : o.SameFrame o'
  heights : Forall₂ Scalar.Same o.heights o'.heights
  crisp : Scalar.Same o.crisp o'.crisp

/-- An output with the ranks of its heights and of its crisp value. -/
structure RankedOutput (α : Type) [Scalar α] [Regular α] where
  frame : OutputVariable α
  heights : List (Option (Rank α))
  crisp : Option (Rank α)

def OutputVariable.ranked (o : OutputVariable α) : RankedOutput α :=
  ⟨o.frame, o.heights.map rank, rank o.crisp⟩

theorem OutputVariable.same_iff {o o' : OutputVariable α} : o.Same o' ↔ o.ranked = o'.ranked := by
  have hheights : Forall₂ Scalar.Same o.heights o'.heights ↔
      o.heights.map rank = o'.heights.map rank := by
    rw [← List.forall₂_eq_eq_eq, List.forall₂_map_left_iff, List.forall₂_map_right_iff]
    exact ⟨.imp fun _ _ => Scalar.same_iff.mp, .imp fun _ _ => Scalar.same_iff.mpr⟩
  constructor
  · rintro ⟨hframe, hys, hcrisp⟩
    unfold ranked
    rw [hheights.mp hys, Scalar.same_iff.mp hcrisp, show o'.frame = o.frame from hframe]
  · intro h
    obtain ⟨hframe, hys, hcrisp⟩ := RankedOutput.mk.inj h
    exact ⟨hframe.symm, hheights.mpr hys, Scalar.same_iff.mpr hcrisp⟩

/-! ## Rules -/

namespace RankedOutput

/-- Raises the heights that the rule reaches to what it concludes there. -/
def raise (activation : Activation) (r : Rule α) (v : RankedOutput α) :
    Except Fault (RankedOutput α) :=
  (r.stretch v.frame).map fun (first, last, samples) =>
    { v with
      heights := raised first last (samples.map (rank ∘ activation.apply r.level)) v.heights }

end RankedOutput

open OutputVariable (ranked)

theorem Rule.map_rank_overlay (activation : Activation) (grid : Grid α) (samples : List α)
    (level : α) (first last : Nat) :
    (grid.overlay (fun s => Accumulation.maximum.apply (activation.apply level s)) samples first
        last).ys.map rank =
      raised first last (samples.map (rank ∘ activation.apply level)) (grid.ys.map rank) := by
  apply List.ext_getElem?
  intro j
  rw [List.getElem?_map, Grid.getElem?_overlay, getElem?_raised, List.getElem?_map,
    List.getElem?_map]
  cases samples[j]? with
  | none => rfl
  | some sample =>
    cases grid.ys[j]? with
    | none => rfl
    | some y =>
      simp only [Option.bind_some, Option.map_some]
      split_ifs
      · exact congrArg some (rank_maximum _ _)
      · rfl

/-- What a rule does to an output under the maximum can be told from ranks. -/
theorem Rule.ranked_accumulate (hmaximum : operators.accumulation = .maximum) (r : Rule α)
    (o : OutputVariable α) :
    o.ranked.raise operators.activation r = (r.accumulate operators o).map ranked := by
  unfold RankedOutput.raise
  rw [accumulate_eq, hmaximum]
  show (r.stretch o.frame).map _ = _
  rw [stretch_frame]
  cases hstretch : r.stretch o with
  | error f => rfl
  | ok s =>
    obtain ⟨grid, hgrid⟩ := exists_grid_of_stretch hstretch
    have hframe (ys : List α) :
        OutputVariable.frame { o with grid := some ⟨grid.xs, ys⟩ } = o.frame := by
      unfold OutputVariable.frame
      rw [hgrid]
      rfl
    unfold ranked OutputVariable.heights OutputVariable.grid?
    rw [hgrid]
    refine congrArg Except.ok (RankedOutput.mk.injEq .. |>.mpr ⟨(hframe _).symm, ?_, rfl⟩)
    exact (map_rank_overlay ..).symm

namespace RankedOutput

variable {activation : Activation} {r' : Rule α} {v w : RankedOutput α}

-- Raising heights again makes no difference, nor does it after other heights have been raised.
theorem raise_idem (h : v.raise activation r = .ok w) :
    w.frame = v.frame ∧ w.raise activation r = .ok w := by
  obtain ⟨⟨first, last, samples⟩, hstretch, rfl⟩ := map_eq_ok.mp h
  refine ⟨rfl, map_eq_ok.mpr ⟨_, hstretch, ?_⟩⟩
  dsimp only
  rw [raised_idem]

theorem raise_kept (hsame : v.raise activation r = .ok v) (h : v.raise activation r' = .ok w) :
    w.raise activation r = .ok w := by
  obtain ⟨⟨first, last, samples⟩, hstretch, hv⟩ := map_eq_ok.mp hsame
  obtain ⟨⟨first', last', samples'⟩, -, rfl⟩ := map_eq_ok.mp h
  refine map_eq_ok.mpr ⟨_, hstretch, ?_⟩
  have hheights := congrArg RankedOutput.heights hv
  dsimp only at hheights ⊢
  rw [raised_comm, hheights]

theorem raise_congr (hterm : r.conclusion.term = r'.conclusion.term)
    (hlevel : rank r.level = rank r'.level) : raise activation r = raise activation r' := by
  have hactivated : rank ∘ activation.apply r.level = rank ∘ activation.apply r'.level := by
    funext sample
    exact activation.rank_apply hlevel rfl
  funext v
  unfold raise
  rw [Rule.stretch_congr hterm, hactivated]

/-- Concludes with a rule on the first output of its name. -/
def conclude (operators : Operators) (r : Rule α) (vs : List (RankedOutput α)) :
    Except Fault (List (RankedOutput α)) :=
  Action.changeFirst (fun v => v.frame.name == r.conclusion.name)
    (.unknownVariable r.conclusion.name) (raise operators.activation r) vs

theorem conclude_congr (hname : r.conclusion.name = r'.conclusion.name)
    (hterm : r.conclusion.term = r'.conclusion.term) (hlevel : rank r.level = rank r'.level) :
    conclude operators r = conclude operators r' := by
  funext vs
  unfold conclude
  rw [hname, raise_congr hterm hlevel]

/-- Activates a rule and concludes with it. -/
def infer (operators : Operators) (inputs : List (Variable α)) (r : Rule α)
    (vs : List (RankedOutput α)) : Except Fault (List (RankedOutput α)) :=
  r.activate inputs operators.norm >>= fun r => conclude operators r vs

theorem absorbing_infer (operators : Operators) (inputs : List (Variable α)) :
    Action.Absorbing (infer operators inputs) where
  idem h := by
    obtain ⟨r', hactivate, hconclude⟩ := bind_eq_ok.mp h
    refine bind_eq_ok.mpr ⟨r', hactivate, Action.changeFirst_idem (fun v w hw => ?_) hconclude⟩
    obtain ⟨hframe, hagain⟩ := raise_idem hw
    exact ⟨by rw [hframe], hagain⟩
  kept hsame h := by
    obtain ⟨r', hactivate, hr'⟩ := bind_eq_ok.mp hsame
    obtain ⟨s', -, hs'⟩ := bind_eq_ok.mp h
    refine bind_eq_ok.mpr ⟨r', hactivate, Action.changeFirst_kept (fun v w hw => ?_) hr' hs'⟩
    exact ⟨by rw [(raise_idem hw).1], fun hv => raise_kept hv hw⟩

end RankedOutput

/-- The outcome with the state seen through `f`. -/
def Outcome.mapState {σ τ β : Type} (f : σ → τ) (o : Outcome σ β) : Outcome τ β :=
  ⟨f o.state, o.notices, o.answer⟩

theorem Rule.ranked_infer (hmaximum : operators.accumulation = .maximum)
    (inputs : List (Variable α)) (r : Rule α) (outputs : List (OutputVariable α)) :
    Action.change (RankedOutput.infer operators inputs r) (outputs.map ranked) =
      (infer operators inputs (r, outputs)).mapState (·.2.map ranked) := by
  have hconclude (r' : Rule α) : RankedOutput.conclude operators r' (outputs.map ranked) =
      (r'.conclude operators outputs).map (List.map ranked) :=
    Action.changeFirst_map (fun _ => rfl) (ranked_accumulate hmaximum r') outputs
  unfold Action.change RankedOutput.infer infer Outcome.mapState
  simp only [Action.bind_eq, Action.andThen, Action.within, Action.look, Action.onFirst_change]
  unfold Action.change
  cases r.activate inputs operators.norm with
  | error f => rfl
  | ok r' =>
    simp only [bind, Except.bind, hconclude]
    unfold conclude
    cases Action.changeFirst (fun o => o.name == r'.conclusion.name)
      (.unknownVariable r'.conclusion.name) (r'.accumulate operators) outputs <;> rfl

/-- Inferring rules in order can be told from ranks. -/
theorem Rule.ranked_sweep_infer (hmaximum : operators.accumulation = .maximum)
    (inputs : List (Variable α)) (rules : List (Rule α)) (outputs : List (OutputVariable α)) :
    Action.forEach rules (fun r => Action.change (RankedOutput.infer operators inputs r))
        (outputs.map ranked) =
      (Action.sweep (infer operators inputs) (rules, outputs)).mapState (·.2.map ranked) := by
  induction rules generalizing outputs with
  | nil => rw [Action.sweep]; rfl
  | cons r rules ih =>
    rw [Action.forEach, Action.sweep]
    unfold Action.andThen
    rw [ranked_infer hmaximum]
    generalize infer operators inputs (r, outputs) = o
    obtain ⟨⟨r', outputs'⟩, notices, answer⟩ := o
    cases answer with
    | error f => rfl
    | ok _ =>
      dsimp only [Outcome.mapState]
      rw [ih]
      rfl

/-! ## Crisp values -/

namespace OutputVariable

variable {o o' : OutputVariable α}

theorem mapState_defuzzify (h : o.ranked = o'.ranked) :
    ((do let _ ← defuzzify : Action (OutputVariable α) Unit) o).mapState ranked =
      ((do let _ ← defuzzify : Action (OutputVariable α) Unit) o').mapState ranked := by
  obtain ⟨hframe, hheights, -⟩ := RankedOutput.mk.inj h
  have hname : o.name = o'.name := congrArg (·.name) hframe
  have hdefault : o.defaultValue = o'.defaultValue := congrArg (·.defaultValue) hframe
  have hxs : o.grid.map (·.xs) = o'.grid.map (·.xs) := by
    have := congrArg (fun p => p.grid.map (·.xs)) hframe
    simpa [frame, Function.comp_def] using this
  rw [Action.bind_eq]
  cases hgrid : o.grid with
  | none =>
    rw [hgrid] at hxs
    have hgrid' := Option.map_eq_none_iff.mp hxs.symm
    -- there is nothing to be turned into a value
    have hfails {p : OutputVariable α} (hp : p.grid = none) :
        p.defuzzify = ⟨p, [], .error (.misconfigured (.noGrid p.name))⟩ := by
      unfold defuzzify grid?
      rw [hp]
    unfold Action.andThen
    rw [hfails hgrid, hfails hgrid', hname]
    exact congrArg (Outcome.mk · _ _) h
  | some grid =>
    rw [hgrid] at hxs
    obtain ⟨grid', hgrid', hxs⟩ := Option.map_eq_some_iff.mp hxs.symm
    have hys : Forall₂ SameRank grid.ys grid'.ys := by
      unfold heights at hheights
      rw [hgrid, hgrid', ← List.forall₂_eq_eq_eq, List.forall₂_map_left_iff,
        List.forall₂_map_right_iff] at hheights
      exact hheights
    obtain ⟨hmass, hcrisp⟩ := rank_centre (congrArg (·.method) hframe) hdefault hxs.symm hys
    have hnotices : (if (o.centre grid).2 then []
          else [Notice.noMass o.name (Scalar.text o.defaultValue)]) =
        if (o'.centre grid').2 then []
          else [Notice.noMass o'.name (Scalar.text o'.defaultValue)] := by
      rw [hmass, hname, hdefault]
    have hranked : ranked { o with crisp := (o.centre grid).1 } =
        ranked { o' with crisp := (o'.centre grid').1 } :=
      RankedOutput.mk.injEq .. |>.mpr ⟨hframe, hheights, hcrisp⟩
    rw [Action.andThen_of_ok (defuzzify_of_grid (grid?_eq_ok.mpr hgrid)),
      Action.andThen_of_ok (defuzzify_of_grid (grid?_eq_ok.mpr hgrid')), hnotices]
    exact congrArg (Outcome.mk · _ _) hranked

end OutputVariable

end FuzzyInference
