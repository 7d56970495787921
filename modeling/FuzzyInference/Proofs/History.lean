import FuzzyInference.Proofs.Views

/-!
# Evaluations without memory

A controller is read, evaluated and configured in any order, and its variables may hold terms in
common.  What its last evaluation leaves depends on the present rules and settings and on the last
reading of each input variable: a fresh copy that gets just these readings ends up with the same
rules and outputs.  Readings of variables that hold a term in common have to come in the order in
which they came first, and a term that no reading reaches keeps the degree that it had.
-/

namespace FuzzyInference

/-! ## The last pair of each name -/

section LastOfEach

variable {β : Type} {pairs : List (String × β)}

/-- The last pair of each name, in the order in which these pairs come. -/
def lastOfEach : List (String × β) → List (String × β)
  | [] => []
  | p :: pairs =>
    if p.1 ∈ pairs.map Prod.fst then lastOfEach pairs else p :: lastOfEach pairs

theorem mem_of_mem_lastOfEach {p : String × β} (h : p ∈ lastOfEach pairs) : p ∈ pairs := by
  induction pairs with
  | nil => exact h
  | cons q pairs ih =>
    rw [lastOfEach] at h
    split at h
    · exact List.mem_cons_of_mem q (ih h)
    · exact List.mem_cons.mpr ((List.mem_cons.mp h).imp_right ih)

theorem nodup_lastOfEach (pairs : List (String × β)) :
    ((lastOfEach pairs).map Prod.fst).Nodup := by
  induction pairs with
  | nil => exact List.nodup_nil
  | cons q pairs ih =>
    rw [lastOfEach]
    split
    · exact ih
    · rename_i hlast
      rw [List.map_cons, List.nodup_cons]
      refine ⟨fun hmem => hlast ?_, ih⟩
      obtain ⟨p, hp, hname⟩ := List.mem_map.mp hmem
      exact List.mem_map.mpr ⟨p, mem_of_mem_lastOfEach hp, hname⟩

/-- Among the pairs of some names the last one stays the last one. -/
theorem getLast?_filter_lastOfEach {f : String × β → Bool} (hf : ∀ p q, p.1 = q.1 → f p = f q)
    (pairs : List (String × β)) :
    ((lastOfEach pairs).filter f).getLast? = (pairs.filter f).getLast? := by
  induction pairs with
  | nil => rfl
  | cons q pairs ih =>
    rw [lastOfEach]
    by_cases hq : f q = true
    · rw [List.filter_cons_of_pos hq]
      split
      · rename_i hlater
        -- the later pair of the name is among them as well
        obtain ⟨p, hp, hname⟩ := List.mem_map.mp hlater
        have hmem : p ∈ pairs.filter f := List.mem_filter.mpr ⟨hp, by rw [hf p q hname, hq]⟩
        rw [ih, List.getLast?_cons_of_ne_nil (List.ne_nil_of_mem hmem)]
      · rw [List.filter_cons_of_pos hq, List.getLast?_cons, List.getLast?_cons, ih]
    · rw [List.filter_cons_of_neg hq]
      split
      · exact ih
      · rw [List.filter_cons_of_neg hq, ih]

-- What is chosen last is last among fewer pairs, too.
theorem getLast?_filter_of_imp {f g : String × β → Bool} {p : String × β}
    (hfg : ∀ q, g q = true → f q = true) (hlast : (pairs.filter f).getLast? = some p)
    (hp : g p = true) : (pairs.filter g).getLast? = some p := by
  obtain ⟨before, hbefore⟩ := List.getLast?_eq_some_iff.mp hlast
  have hfewer : pairs.filter g = (pairs.filter f).filter g := by
    rw [List.filter_filter]
    refine List.filter_congr fun q _ => ?_
    by_cases hq : g q = true
    · rw [hq, hfg q hq]
      rfl
    · rw [Bool.not_eq_true] at hq
      rw [hq]
      rfl
  rw [hfewer, hbefore, List.filter_append, List.filter_singleton, hp]
  simp

end LastOfEach

variable {α : Type} [Scalar α]

/-! ## Terms -/

namespace Term

/-- The term has a degree for the reading. -/
def Accepts (t : Term α) (r : Reading α) : Prop := ∃ dom, t.degree r.division r.value = .ok dom

/-- The term with the degree of a reading, if it has one. -/
def given (t : Term α) (r : Reading α) : Term α :=
  match t.degree r.division r.value with
  | .ok dom => { t with dom }
  | .error _ => t

theorem fuzzify_iff {t t' : Term α} {r : Reading α} :
    t.fuzzify r.division r.value = .ok t' ↔ t.Accepts r ∧ t' = t.given r := by
  unfold fuzzify given Accepts
  cases t.degree r.division r.value with
  | error f => simp [Except.map]
  | ok dom => simp [Except.map, eq_comm]

theorem fresh_given (t : Term α) (r : Reading α) : (t.given r).fresh = t.fresh := by
  unfold given
  cases t.degree r.division r.value with
  | error f => rfl
  | ok dom => rfl

-- Degrees depend on the points alone.
theorem accepts_congr {t t' : Term α} (h : t'.fresh = t.fresh) (r : Reading α) :
    t'.Accepts r ↔ t.Accepts r := by
  show t'.fresh.Accepts r ↔ t.fresh.Accepts r
  rw [h]

theorem given_congr {t t' : Term α} {r : Reading α} (h : t'.fresh = t.fresh) (hr : t.Accepts r) :
    t'.given r = t.given r := by
  have hgiven {u : Term α} (hu : u.Accepts r) : u.given r = u.fresh.given r := by
    obtain ⟨dom, hdom⟩ := hu
    have hfresh : u.fresh.degree r.division r.value = .ok dom := hdom
    unfold given
    rw [hdom, hfresh]
    rfl
  rw [hgiven hr, hgiven ((accepts_congr h r).mpr hr), h]

end Term

/-! ## Fresh copies -/

namespace OutputHolder

/-- The output before its first evaluation. -/
def fresh (o : OutputHolder α) : OutputHolder α :=
  { o with crisp := 0, grid := o.grid.map fun grid => { grid with ys := grid.ys.map fun _ => 0 } }

/-- The output before its first evaluation, without its settings. -/
def stem (o : OutputHolder α) : OutputHolder α :=
  { o.fresh with method := .gravity, defaultValue := 0 }

/-- The output before its first evaluation, with the settings of another one. -/
def freshWith (o p : OutputHolder α) : OutputHolder α :=
  { o.fresh with method := p.method, defaultValue := p.defaultValue }

theorem fresh_fresh (o : OutputHolder α) : o.fresh.fresh = o.fresh := by
  unfold fresh
  cases o.grid with
  | none => rfl
  | some grid =>
    simp only [Option.map_some, List.map_map]
    rfl

theorem freshWith_eq {o p : OutputHolder α} (h : p.stem = o.stem) : o.freshWith p = p.fresh :=
  congrArg (fun q => { q with method := p.method, defaultValue := p.defaultValue }) h.symm

theorem zipWith_freshWith {os ps : List (OutputHolder α)} (h : ps.map stem = os.map stem) :
    List.zipWith freshWith os ps = ps.map fresh := by
  induction os generalizing ps with
  | nil =>
    rw [List.map_eq_nil_iff.mp h]
    rfl
  | cons o os ih =>
    cases ps with
    | nil => cases h
    | cons p ps =>
      obtain ⟨hfirst, hrest⟩ := List.cons.inj h
      rw [List.zipWith_cons_cons, freshWith_eq hfirst, ih hrest]
      rfl

theorem stem_save {store : Nat → Term α} {o : OutputHolder α} {p : OutputVariable α}
    (h : p.stem = (o.load store).stem) : (o.save p).stem = o.stem := congrArg o.save h

theorem map_stem_save {store : Nat → Term α} {os : List (OutputHolder α)}
    {ps : List (OutputVariable α)}
    (h : ps.map OutputVariable.stem = (os.map (load store)).map OutputVariable.stem) :
    (List.zipWith save os ps).map stem = os.map stem := by
  induction os generalizing ps with
  | nil => rfl
  | cons o os ih =>
    cases ps with
    | nil => cases h
    | cons p ps =>
      obtain ⟨hfirst, hrest⟩ := List.cons.inj h
      rw [List.zipWith_cons_cons, List.map_cons, List.map_cons, stem_save hfirst, ih hrest]

/-- The grid has a height for each of its cells. -/
def Gridded (o : OutputHolder α) : Prop :=
  ∀ grid, o.grid = some grid → grid.ys.length = o.resolution

theorem gridded_stem {o : OutputHolder α} : o.stem.Gridded ↔ o.Gridded := by
  unfold Gridded stem fresh
  cases o.grid with
  | none => simp
  | some grid => simp

end OutputHolder

/-! ## Readings -/

namespace SharedController

variable {c d e s s' : SharedController α} {name : String}
  {readings more : List (String × Reading α)}

/-- Takes the degrees of a reading. -/
def take (p : String × Reading α) : Action (SharedController α) Unit :=
  fuzzify p.2.division p.1 p.2.value

/-- The variable of a name exists and takes the reading. -/
def Takes (s : SharedController α) (p : String × Reading α) : Prop :=
  ∃ v, s.input? p.1 = some v ∧ ∀ q ∈ v.places, (s.store q).Accepts p.2

/-- The input variable of the name holds the place. -/
def reaches (s : SharedController α) (place : Nat) (name : String) : Bool :=
  match s.input? name with
  | none => false
  | some v => decide (place ∈ v.places)

/-- The term at a place after some readings: it has the degree of the last one that reaches it. -/
def after (s : SharedController α) (readings : List (String × Reading α)) (place : Nat) : Term α :=
  match (readings.filter (s.reaches place ·.1)).getLast? with
  | none => s.store place
  | some p => (s.store place).given p.2

/-- The controller after the terms at some places were given their degrees of a reading. -/
def given (s : SharedController α) (r : Reading α) (places : List Nat) : SharedController α :=
  { s with store := fun q => if q ∈ places then (s.store q).given r else s.store q }

theorem fresh_given (s : SharedController α) (r : Reading α) (places : List Nat) (q : Nat) :
    ((s.given r places).store q).fresh = (s.store q).fresh := by
  unfold given
  dsimp only
  split
  · exact Term.fresh_given (s.store q) r
  · rfl

-- A term at two of the places is given the same degree twice.
theorem given_cons {r : Reading α} {place : Nat} (h : (s.store place).Accepts r)
    (places : List Nat) : (s.given r [place]).given r places = s.given r (place :: places) := by
  unfold given
  congr 1
  funext q
  dsimp only
  by_cases hq : q = place
  · have htwice : ((s.store place).given r).given r = (s.store place).given r :=
      Term.given_congr (Term.fresh_given (s.store place) r) h
    simp only [hq, List.mem_cons, true_or, if_true, htwice, ite_self]
  · simp only [List.mem_cons, List.not_mem_nil, hq, false_or, if_false]

theorem leads_takeDegree {r : Reading α} {place : Nat} :
    (takeDegree r.division r.value place).Leads s s' () ↔
      (s.store place).Accepts r ∧ s' = s.given r [place] := by
  have hput : s.put place ((s.store place).given r) = s.given r [place] := by
    unfold put given
    congr 1
    funext q
    simp only [List.mem_singleton]
    by_cases hq : q = place
    · rw [if_pos hq, if_pos hq, hq]
    · rw [if_neg hq, if_neg hq]
  unfold takeDegree
  rw [Action.leads_within]
  simp only [Action.leads_change, Term.fuzzify_iff]
  constructor
  · rintro ⟨t, ⟨haccepts, rfl⟩, rfl⟩
    exact ⟨haccepts, hput⟩
  · rintro ⟨haccepts, rfl⟩
    exact ⟨_, ⟨haccepts, rfl⟩, hput.symm⟩

theorem leads_forEach_takeDegree {r : Reading α} {places : List Nat} :
    (Action.forEach places (takeDegree r.division r.value)).Leads s s' () ↔
      (∀ q ∈ places, (s.store q).Accepts r) ∧ s' = s.given r places := by
  induction places generalizing s with
  | nil =>
    rw [Action.leads_forEach_nil]
    have hstart : s.given r [] = s := rfl
    rw [hstart]
    exact (and_iff_right fun q hq => absurd hq List.not_mem_nil).symm
  | cons p places ih =>
    have haccepts (q : Nat) := Term.accepts_congr (fresh_given s r [p] q) r
    rw [Action.leads_forEach_cons, List.forall_mem_cons]
    simp only [leads_takeDegree, ih]
    constructor
    · rintro ⟨_, ⟨hp, rfl⟩, hplaces, rfl⟩
      exact ⟨⟨hp, fun q hq => (haccepts q).mp (hplaces q hq)⟩, given_cons hp places⟩
    · rintro ⟨⟨hp, hplaces⟩, rfl⟩
      exact ⟨_, ⟨hp, rfl⟩, fun q hq => (haccepts q).mpr (hplaces q hq), (given_cons hp places).symm⟩

theorem leads_take {p : String × Reading α} :
    (take p).Leads s s' () ↔ ∃ v, s.input? p.1 = some v ∧
      (∀ q ∈ v.places, (s.store q).Accepts p.2) ∧ s' = s.given p.2 v.places := by
  cases hv : s.input? p.1 with
  | none =>
    constructor
    · intro ⟨notices, h⟩
      unfold take at h
      rw [fuzzify_of_no_input hv] at h
      cases h
    · rintro ⟨v, hfound, -⟩
      cases hfound
  | some v =>
    have hrun : (take p).Leads s s' () ↔
        (Action.forEach v.places (takeDegree p.2.division p.2.value)).Leads s s' () := by
      unfold take Action.Leads
      rw [fuzzify_of_input hv]
    rw [hrun, leads_forEach_takeDegree]
    simp

theorem exists_take_iff {p : String × Reading α} : (∃ s', (take p).Leads s s' ()) ↔ s.Takes p := by
  constructor
  · intro ⟨s', h⟩
    obtain ⟨v, hv, haccepts, -⟩ := leads_take.mp h
    exact ⟨v, hv, haccepts⟩
  · intro ⟨v, hv, haccepts⟩
    exact ⟨_, leads_take.mpr ⟨v, hv, haccepts, rfl⟩⟩

/-! ## Runs -/

/-- A controller after some readings, however it has been evaluated and configured meanwhile. -/
structure Tracks (c : SharedController α) (readings : List (String × Reading α))
    (d : SharedController α) : Prop where
  takes : ∀ p ∈ readings, c.Takes p
  inputs : d.inputs = c.inputs
  store : ∀ q, d.store q = c.after readings q
  outputs : d.outputs.map OutputHolder.stem = c.outputs.map OutputHolder.stem

theorem Tracks.start (c : SharedController α) : c.Tracks [] c :=
  ⟨fun _ hp => absurd hp List.not_mem_nil, rfl, fun _ => rfl, rfl⟩

theorem fresh_after (c : SharedController α) (readings : List (String × Reading α)) (q : Nat) :
    (c.after readings q).fresh = (c.store q).fresh := by
  unfold after
  split
  · rfl
  · exact Term.fresh_given (c.store q) _

theorem Tracks.input? (hd : c.Tracks readings d) (name : String) :
    d.input? name = c.input? name := by
  unfold SharedController.input?
  rw [hd.inputs]

theorem Tracks.accepts_iff (hd : c.Tracks readings d) (q : Nat) (r : Reading α) :
    (d.store q).Accepts r ↔ (c.store q).Accepts r :=
  Term.accepts_congr (by rw [hd.store q, fresh_after]) r

theorem Tracks.takes_iff (hd : c.Tracks readings d) (p : String × Reading α) :
    d.Takes p ↔ c.Takes p := by
  unfold Takes
  rw [hd.input?]
  simp only [hd.accepts_iff]

theorem after_concat (c : SharedController α) (readings : List (String × Reading α))
    (p : String × Reading α) (q : Nat) : c.after (readings ++ [p]) q =
      if c.reaches q p.1 = true then (c.store q).given p.2 else c.after readings q := by
  unfold after
  rw [List.filter_append, List.filter_singleton]
  by_cases hq : c.reaches q p.1 = true
  · rw [if_pos hq, hq, cond_true, List.getLast?_concat]
  · rw [if_neg hq]
    rw [Bool.not_eq_true] at hq
    rw [hq, cond_false, List.append_nil]

theorem Tracks.take {p : String × Reading α} (hd : c.Tracks readings d)
    (h : (take p).Leads d e ()) : c.Tracks (readings ++ [p]) e := by
  have htakes : c.Takes p := (hd.takes_iff p).mp (exists_take_iff.mp ⟨e, h⟩)
  obtain ⟨v, hv, haccepts, rfl⟩ := leads_take.mp h
  refine ⟨?_, hd.inputs, fun q => ?_, hd.outputs⟩
  · exact List.forall_mem_append.mpr ⟨hd.takes, fun p' hp' => List.mem_singleton.mp hp' ▸ htakes⟩
  · rw [hd.input?] at hv
    have hreaches : c.reaches q p.1 = decide (q ∈ v.places) := by
      unfold reaches
      rw [hv]
    rw [after_concat, hreaches]
    show (if q ∈ v.places then (d.store q).given p.2 else d.store q) = _
    by_cases hq : q ∈ v.places
    · have hgiven : (d.store q).given p.2 = (c.store q).given p.2 :=
        Term.given_congr (by rw [hd.store q, fresh_after])
          ((hd.accepts_iff q p.2).mp (haccepts q hq))
      rw [if_pos hq, if_pos (decide_eq_true hq), hgiven]
    · rw [if_neg hq, if_neg (mt of_decide_eq_true hq), hd.store q]

theorem Tracks.run (hd : c.Tracks readings d)
    (h : (Action.forEach more SharedController.take).Leads d e ()) :
    c.Tracks (readings ++ more) e := by
  induction more generalizing readings d with
  | nil =>
    obtain rfl := Action.leads_forEach_nil.mp h
    rwa [List.append_nil]
  | cons p more ih =>
    obtain ⟨d₁, hfirst, hrest⟩ := Action.leads_forEach_cons.mp h
    rw [List.append_cons]
    exact ih (hd.take hfirst) hrest

/-- Readings succeed one after the other when each of them would succeed at once. -/
theorem Tracks.exists_run (hd : c.Tracks readings d) (h : ∀ p ∈ more, c.Takes p) :
    ∃ e, (Action.forEach more SharedController.take).Leads d e () := by
  induction more generalizing readings d with
  | nil => exact ⟨d, Action.leads_forEach_nil.mpr rfl⟩
  | cons p more ih =>
    obtain ⟨hp, hmore⟩ := List.forall_mem_cons.mp h
    obtain ⟨d₁, hfirst⟩ := exists_take_iff.mpr ((hd.takes_iff p).mpr hp)
    obtain ⟨e, hrest⟩ := ih (hd.take hfirst) hmore
    exact ⟨e, Action.leads_forEach_cons.mpr ⟨d₁, hfirst, hrest⟩⟩

-- Readings change the terms in the store only.
theorem exists_store_of_run (h : (Action.forEach more take).Leads d e ()) :
    ∃ store, e = { d with store } := by
  induction more generalizing d with
  | nil => exact ⟨d.store, Action.leads_forEach_nil.mp h⟩
  | cons p more ih =>
    obtain ⟨d₁, hfirst, hrest⟩ := Action.leads_forEach_cons.mp h
    obtain ⟨v, -, -, rfl⟩ := leads_take.mp hfirst
    obtain ⟨store, he⟩ := ih hrest
    exact ⟨store, he⟩

omit [Scalar α] in
theorem leads_apart {β : Type} {act : Action (Controller α) β} {b : β} :
    (apart act).Leads d e b ↔ ∃ c', act.Leads d.view c' b ∧ e = save c' d := Action.leads_within

theorem Tracks.save {c' : Controller α} (hd : c.Tracks readings d)
    (h : c'.outputs.map OutputVariable.stem = d.view.outputs.map OutputVariable.stem) :
    c.Tracks readings (save c' d) :=
  ⟨hd.takes, hd.inputs, hd.store, (OutputHolder.map_stem_save h).trans hd.outputs⟩

theorem Tracks.gridded (hd : c.Tracks readings d) (hgridded : ∀ o ∈ c.outputs, o.Gridded) :
    ∀ o ∈ d.view.outputs, o.Gridded := by
  have hholders : ∀ o ∈ d.outputs, o.Gridded :=
    forall_of_map_eq (g := OutputHolder.stem)
      (fun o p hsame ho => OutputHolder.gridded_stem.mp (hsame ▸ OutputHolder.gridded_stem.mpr ho))
      hd.outputs hgridded
  intro o ho
  obtain ⟨p, hp, rfl⟩ := List.mem_map.mp ho
  exact hholders p hp

theorem Tracks.evaluateRules (hd : c.Tracks readings d) (hgridded : ∀ o ∈ c.outputs, o.Gridded)
    (h : (apart Controller.evaluateRules).Leads d e ()) : c.Tracks readings e := by
  obtain ⟨c', hrules, rfl⟩ := leads_apart.mp h
  exact hd.save (Controller.stem_of_evaluateRules (hd.gridded hgridded) hrules)

theorem leads_evaluate {division : Division} {values crisp : List (String × α)} :
    (evaluate division values).Leads d e crisp ↔ ∃ d₁,
      (Action.forEach (Controller.readingsOf division values) take).Leads d d₁ () ∧
        (apart Controller.evaluateRules).Leads d₁ e () ∧ crisp = e.view.crispValues := by
  unfold evaluate Controller.readingsOf
  rw [Action.leads_bind, Action.forEach_map]
  constructor
  · rintro ⟨d₁, _, hread, hrest⟩
    obtain ⟨e', _, hrules, hask⟩ := Action.leads_bind.mp hrest
    obtain ⟨rfl, hcrisp⟩ := Action.leads_ask.mp hask
    exact ⟨d₁, hread, hrules, (Except.ok.inj hcrisp).symm⟩
  · rintro ⟨d₁, hread, hrules, rfl⟩
    exact ⟨d₁, (), hread, Action.leads_bind.mpr ⟨e, (), hrules, Action.leads_ask.mpr ⟨rfl, rfl⟩⟩⟩

/-- A step adds its readings to those that were taken before. -/
theorem Tracks.step {step : Step α} (hgridded : ∀ o ∈ c.outputs, o.Gridded)
    (hd : c.Tracks readings d) (h : (SharedController.run step).Leads d e ()) :
    c.Tracks (readings ++ step.readings) e := by
  have hsets (hstep : step.Sets) (h : (apart step.run).Leads d e ()) :
      c.Tracks (readings ++ []) e := by
    obtain ⟨c', hrun, rfl⟩ := leads_apart.mp h
    rw [List.append_nil]
    exact hd.save (hrun.state_eq ▸ Controller.configured_step hstep d.view).outputs
  cases step with
  | fuzzify name r => exact hd.take h
  | evaluate division values =>
    obtain ⟨e', crisp, hevaluate, hgive⟩ := Action.leads_bind.mp h
    obtain ⟨rfl, -⟩ := Action.leads_give.mp hgive
    obtain ⟨d₁, hread, hrules, -⟩ := leads_evaluate.mp hevaluate
    exact (hd.run hread).evaluateRules hgridded hrules
  | evaluateRules =>
    show c.Tracks (readings ++ []) e
    rw [List.append_nil]
    exact hd.evaluateRules hgridded h
  | _ => exact hsets trivial h

theorem Tracks.steps {steps : List (Step α)} (hgridded : ∀ o ∈ c.outputs, o.Gridded)
    (hd : c.Tracks readings d) (h : (Action.forEach steps SharedController.run).Leads d e ()) :
    c.Tracks (readings ++ steps.flatMap Step.readings) e := by
  induction steps generalizing readings d with
  | nil =>
    obtain rfl := Action.leads_forEach_nil.mp h
    rwa [List.flatMap_nil, List.append_nil]
  | cons step steps ih =>
    obtain ⟨d₁, hfirst, hrest⟩ := Action.leads_forEach_cons.mp h
    rw [List.flatMap_cons, ← List.append_assoc]
    exact ih (hd.step hgridded hfirst) hrest

/-! ## The last evaluation -/

/-- A fresh copy: no rule has been activated, all grids and crisp values are zero, and so is the
degree of every term that one of the readings reaches.  Its rules and settings are those of another
controller. -/
def freshWith (c d : SharedController α) (readings : List (String × Reading α)) :
    SharedController α where
  config := c.config
  name := c.name
  store := fun q =>
    if readings.any (c.reaches q ·.1) then (c.store q).fresh else c.store q
  inputs := c.inputs
  outputs := List.zipWith OutputHolder.freshWith c.outputs d.outputs
  rules := d.rules.map Rule.fresh
  operators := d.operators

/-- Whenever two input variables hold a term in common, their readings come in the same order. -/
def SameTurns (c : SharedController α) (order order' : List (String × Reading α)) : Prop :=
  ∀ v ∈ c.inputs, ∀ w ∈ c.inputs, v.name ≠ w.name → (∃ q ∈ v.places, q ∈ w.places) →
    order.filter (fun p => p.1 = v.name ∨ p.1 = w.name) =
      order'.filter fun p => p.1 = v.name ∨ p.1 = w.name

omit [Scalar α] in
theorem exists_of_reaches {q : Nat} (h : c.reaches q name = true) :
    ∃ v ∈ c.inputs, v.name = name ∧ q ∈ v.places := by
  unfold reaches at h
  cases hv : c.input? name with
  | none =>
    rw [hv] at h
    cases h
  | some v =>
    rw [hv] at h
    have hname : v.name = name := by simpa using List.find?_some hv
    exact ⟨v, List.mem_of_find?_eq_some hv, hname, of_decide_eq_true h⟩

theorem fresh_freshWith (q : Nat) :
    ((c.freshWith d readings).store q).fresh = (c.store q).fresh := by
  unfold freshWith
  dsimp only
  split <;> rfl

-- Two places at the end would be those of two variables that hold the term in common.
omit [Scalar α] in
theorem getLast?_reaching {order : List (String × Reading α)}
    (horder : order.Perm (lastOfEach readings)) (hturns : c.SameTurns order (lastOfEach readings))
    (q : Nat) : (order.filter (c.reaches q ·.1)).getLast? =
      (readings.filter (c.reaches q ·.1)).getLast? := by
  have hsame (p p' : String × Reading α) (h : p.1 = p'.1) :
      c.reaches q p.1 = c.reaches q p'.1 := by rw [h]
  rw [← getLast?_filter_lastOfEach hsame readings]
  have hperm := horder.filter (c.reaches q ·.1)
  cases hlast : (order.filter (c.reaches q ·.1)).getLast? with
  | none =>
    rw [List.getLast?_eq_none_iff] at hlast
    rw [hlast] at hperm
    rw [← hperm.nil_eq, List.getLast?_nil]
  | some p =>
    have hp := List.mem_filter.mp (List.mem_of_getLast? hlast)
    cases hlast' : ((lastOfEach readings).filter (c.reaches q ·.1)).getLast? with
    | none =>
      rw [List.getLast?_eq_none_iff] at hlast'
      rw [hlast'] at hperm
      rw [hperm.eq_nil, List.getLast?_nil] at hlast
      cases hlast
    | some p' =>
      have hp' := List.mem_filter.mp (List.mem_of_getLast? hlast')
      by_cases hname : p.1 = p'.1
      · exact congrArg some (List.inj_on_of_nodup_map (nodup_lastOfEach readings)
          (horder.mem_iff.mp hp.1) hp'.1 hname)
      · obtain ⟨v, hv, hvname, hqv⟩ := exists_of_reaches hp.2
        obtain ⟨w, hw, hwname, hqw⟩ := exists_of_reaches hp'.2
        have hpair : ∀ r : String × Reading α,
            decide (r.1 = v.name ∨ r.1 = w.name) = true → c.reaches q r.1 = true := by
          intro r hr
          rcases of_decide_eq_true hr with hr | hr
          · rw [hr, hvname, hp.2]
          · rw [hr, hwname, hp'.2]
        have hends := hturns v hv w hw (by rwa [hvname, hwname]) ⟨q, hqv, hqw⟩
        have hend := getLast?_filter_of_imp hpair hlast (decide_eq_true (.inl hvname.symm))
        have hend' := getLast?_filter_of_imp hpair hlast' (decide_eq_true (.inr hwname.symm))
        rw [← hend, hends, hend']

-- A fresh copy that gets the last readings finds every term as it is after all of them.
theorem after_freshWith {order : List (String × Reading α)}
    (horder : order.Perm (lastOfEach readings)) (hturns : c.SameTurns order (lastOfEach readings))
    (htakes : ∀ p ∈ readings, c.Takes p) (q : Nat) :
    (c.freshWith d readings).after order q = c.after readings q := by
  have hlast := getLast?_reaching horder hturns q
  unfold after
  rw [show ((c.freshWith d readings).reaches q) = c.reaches q from rfl, hlast]
  cases hread : (readings.filter (c.reaches q ·.1)).getLast? with
  | none =>
    -- no reading reaches the term
    rw [List.getLast?_eq_none_iff, List.filter_eq_nil_iff] at hread
    refine if_neg fun hany => ?_
    obtain ⟨p, hp, hreaches⟩ := List.any_eq_true.mp hany
    exact hread p hp hreaches
  | some p =>
    obtain ⟨hp, hreaches⟩ := List.mem_filter.mp (List.mem_of_getLast? hread)
    have hstart : (c.freshWith d readings).store q = (c.store q).fresh :=
      if_pos (List.any_eq_true.mpr ⟨p, hp, hreaches⟩)
    have haccepts : (c.store q).Accepts p.2 := by
      obtain ⟨v, hv, haccepts⟩ := htakes p hp
      unfold reaches at hreaches
      rw [hv] at hreaches
      exact haccepts q (of_decide_eq_true hreaches)
    show ((c.freshWith d readings).store q).given p.2 = (c.store q).given p.2
    rw [hstart]
    exact Term.given_congr rfl haccepts

/-- Controllers with the same operators, inputs and terms, whose rules and outputs are the same up
to levels, heights and crisp values, end up with the same rules and outputs. -/
theorem evaluateRules_congr {d' : SharedController α} (hoperators : e.operators = d.operators)
    (hstore : e.store = d.store) (hinputs : e.inputs = d.inputs)
    (hrules : e.rules.map Rule.fresh = d.rules.map Rule.fresh)
    (houtputs : e.outputs.map OutputHolder.fresh = d.outputs.map OutputHolder.fresh)
    (h : (apart Controller.evaluateRules).Leads d d' ()) :
    ∃ e', (apart Controller.evaluateRules).Leads e e' () ∧ e'.rules = d'.rules ∧
      e'.outputs = d'.outputs := by
  have hfound (name : String) : e.view.input? name = d.view.input? name := by
    unfold Controller.input? view
    rw [hinputs, hstore]
  have hseen (s : SharedController α) : s.view.outputs.map OutputVariable.fresh =
      (s.outputs.map OutputHolder.fresh).map (OutputHolder.load s.store) := by
    unfold view
    rw [List.map_map, List.map_map]
    rfl
  have hsaved (s : SharedController α) (ps : List (OutputVariable α)) :
      List.zipWith OutputHolder.save s.outputs ps =
        List.zipWith OutputHolder.save (s.outputs.map OutputHolder.fresh) ps := by
    rw [List.zipWith_map_left]
    rfl
  obtain ⟨c', hrun, rfl⟩ := leads_apart.mp h
  have hviews : e.view.outputs.map OutputVariable.fresh =
      d.view.outputs.map OutputVariable.fresh := by
    rw [hseen, hseen, houtputs, hstore]
  have hcopied := Controller.evaluateRules_congr hoperators hfound hrules hviews hrun
  refine ⟨_, leads_apart.mpr ⟨_, hcopied, rfl⟩, rfl, ?_⟩
  show List.zipWith OutputHolder.save e.outputs c'.outputs =
    List.zipWith OutputHolder.save d.outputs c'.outputs
  rw [hsaved, houtputs, ← hsaved]

/-- The last evaluation of a run knows nothing of the run but the present rules and settings and the
last reading of each input: a fresh copy takes these readings, and its evaluation leaves the same
rules with their levels and the same outputs with their grids and crisp values.  The readings of
inputs that hold a term in common come in the order in which they came last; all others may come in
any order.  The grids have their heights in every controller that operations have built. -/
theorem evaluateRules_forgets {d' : SharedController α} {steps : List (Step α)}
    {order : List (String × Reading α)} (hgridded : ∀ o ∈ c.outputs, o.Gridded)
    (hsteps : (Action.forEach steps run).Leads c d ())
    (hlast : (apart Controller.evaluateRules).Leads d d' ())
    (horder : order.Perm (lastOfEach (steps.flatMap Step.readings)))
    (hturns : c.SameTurns order (lastOfEach (steps.flatMap Step.readings))) :
    ∃ e e', (Action.forEach order take).Leads (c.freshWith d (steps.flatMap Step.readings)) e () ∧
      (apart Controller.evaluateRules).Leads e e' () ∧ e'.rules = d'.rules ∧
      e'.outputs = d'.outputs := by
  generalize hreadings : steps.flatMap Step.readings = readings at *
  have hd : c.Tracks readings d := by
    rw [← hreadings, ← List.nil_append (steps.flatMap Step.readings)]
    exact (Tracks.start c).steps hgridded hsteps
  have hcopy := Tracks.start (c.freshWith d readings)
  -- every last reading has been taken before, so the copy takes it too
  have htakes : ∀ p ∈ order, (c.freshWith d readings).Takes p := by
    intro p hp
    obtain ⟨v, hv, haccepts⟩ := hd.takes p (mem_of_mem_lastOfEach (horder.mem_iff.mp hp))
    exact ⟨v, hv, fun q hq => (Term.accepts_congr (fresh_freshWith q) p.2).mpr (haccepts q hq)⟩
  obtain ⟨e, he⟩ := hcopy.exists_run htakes
  have hstore : e.store = d.store := by
    funext q
    rw [(hcopy.run he).store q, List.nil_append, after_freshWith horder hturns hd.takes, hd.store q]
  have hrules : (c.freshWith d readings).rules.map Rule.fresh = d.rules.map Rule.fresh := by
    unfold freshWith
    rw [List.map_map]
    rfl
  have houtputs : (c.freshWith d readings).outputs.map OutputHolder.fresh =
      d.outputs.map OutputHolder.fresh := by
    unfold freshWith
    rw [OutputHolder.zipWith_freshWith hd.outputs, List.map_map]
    exact congrArg (List.map · d.outputs) (funext OutputHolder.fresh_fresh)
  obtain ⟨store, rfl⟩ := exists_store_of_run he
  have hoperators : (c.freshWith d readings).operators = d.operators := rfl
  obtain ⟨e', hrun, hsame⟩ := evaluateRules_congr (e := { c.freshWith d readings with store })
    hoperators hstore hd.inputs.symm hrules houtputs hlast
  exact ⟨_, e', he, hrun, hsame⟩

/-- A fan for a house with two thermometers that are read with the same terms. -/
def houseFan : SharedController Rat where
  config := .standard
  name := "fan"
  store
    | 0 => ⟨"cold", [⟨0, 1⟩, ⟨30, 0⟩], 0, [0]⟩
    | 1 => ⟨"hot", [⟨0, 0⟩, ⟨30, 1⟩], 1 / 2, [0]⟩
    | 2 => ⟨"high", [⟨50, 0⟩, ⟨100, 1⟩], 0, [0]⟩
    | 3 => ⟨"slow", [⟨0, 1⟩, ⟨1, 1⟩], 1, [1, 1, 1, 1]⟩
    | _ => ⟨"fast", [⟨1, 1⟩, ⟨3, 1⟩], 1, [1, 1, 1, 1]⟩
  inputs := [⟨"indoor", [0, 1]⟩, ⟨"outdoor", [0, 1]⟩, ⟨"humidity", [2]⟩]
  outputs := [{
    name := "speed", places := [3, 4], crisp := 0, defaultValue := 0, resolution := 4
    method := .gravity, grid := some ⟨[0, 1, 2, 3], [0, 0, 0, 0]⟩ }]
  rules := [.ofCondition (.is ⟨"indoor", 1, false⟩) "speed" 1 1,
    .ofCondition (.is ⟨"outdoor", 0, false⟩) "speed" 0 1]
  operators := ⟨.minMax, .minimum, .boundedSum⟩

/-- A day of the fan in the house. -/
def houseDay : List (Step Rat) := [
  .fuzzify "indoor" ⟨.checked, 3⟩,
  .evaluate .checked [("humidity", 90), ("outdoor", 27)],
  .setActivation (.text "PROD"),
  .addRule (.ofCondition (.or (.is ⟨"humidity", 0, false⟩) (.is ⟨"indoor", 0, false⟩)) "speed" 1 1),
  .setMethod "speed" (.text "COA"),
  .evaluate .total [("indoor", 12)]]

theorem evaluateRules_forgets_houseFan :
    let evening := (Action.forEach houseDay run houseFan).state
    let night := (apart Controller.evaluateRules evening).state
    ∃ e e', (Action.forEach
        [("outdoor", ⟨.checked, 27⟩), ("indoor", ⟨.total, 12⟩), ("humidity", ⟨.checked, 90⟩)]
        take).Leads (houseFan.freshWith evening (houseDay.flatMap Step.readings)) e () ∧
      (apart Controller.evaluateRules).Leads e e' () ∧ e'.rules = night.rules ∧
      e'.outputs = night.outputs := by
  intro evening night
  have hgridded : ∀ o ∈ houseFan.outputs, o.Gridded := by
    intro o ho grid hgrid
    rw [List.mem_singleton.mp ho] at hgrid ⊢
    rw [← Option.some.inj hgrid]
    rfl
  have hday : (Action.forEach houseDay run houseFan).answer = .ok () := by decide +kernel
  have hlast : (apart Controller.evaluateRules evening).answer = .ok () := by decide +kernel
  exact evaluateRules_forgets hgridded (Action.leads_of_answer hday) (Action.leads_of_answer hlast)
    (by decide +kernel) (by unfold SameTurns; decide +kernel)

/-- Where inputs hold a term in common, the order of their readings counts, and an input that is
never read has the degrees of the other one.  Without any reading the degrees are those from the
start. -/
theorem evaluateRules_remembers_houseFan :
    let day (values : List (String × Rat)) := evaluate .checked values houseFan
    let levels (values : List (String × Rat)) := (day values).state.rules.map (·.level)
    levels [("indoor", 3), ("outdoor", 27)] = [9 / 10, 1 / 10] ∧
    levels [("outdoor", 27), ("indoor", 3)] = [1 / 10, 9 / 10] ∧
    (day [("indoor", 3), ("outdoor", 27)]).answer = .ok [("speed", 55 / 29)] ∧
    (day [("outdoor", 27), ("indoor", 3)]).answer = .ok [("speed", 5 / 7)] ∧
    levels [("outdoor", 27)] = [9 / 10, 1 / 10] ∧ levels [] = [1 / 2, 0] := by
  decide +kernel

end SharedController

end FuzzyInference
