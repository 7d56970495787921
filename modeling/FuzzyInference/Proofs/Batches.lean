import FuzzyInference.Batch
import FuzzyInference.Proofs.Bisection
import FuzzyInference.Proofs.Grids
import FuzzyInference.Proofs.Steps
import FuzzyInference.Proofs.Outline
import FuzzyInference.Proofs.Success

/-!
# Batches

Evaluating a batch is evaluating each row on its own: the pieces put together are the rows, a row
knows nothing of the rows before it, and numbers are divided alike in both.
-/

namespace FuzzyInference

/-! ## Pieces -/

section Pieces

variable {β γ : Type}

theorem flatten_pieces {count : Nat} (hcount : 1 ≤ count) (items : List β) :
    (pieces items count).flatten = items := by
  induction count generalizing items with
  | zero => cases hcount
  | succ count ih =>
    rw [pieces, List.flatten_cons]
    by_cases hlast : count = 0
    · -- the last piece takes all that is left
      rw [hlast, Nat.zero_add, Nat.add_zero, Nat.div_one, List.take_length, List.drop_length]
      rw [pieces, List.flatten_nil, List.append_nil]
    · rw [ih (by omega), List.take_append_drop]

theorem flatten_shares {count : Nat} (hcount : 1 ≤ count) (items : List β) :
    (shares items count).flatten = items := by
  unfold shares
  rw [List.flatten_filter_not_isEmpty, flatten_pieces hcount]

theorem divMod_of_lt {n s : Nat} (q : Nat) (hs : s < n) :
    (n * q + s) / n = q ∧ (n * q + s) % n = s := by
  rw [Nat.mul_add_div (by omega), Nat.mul_add_mod, Nat.div_eq_of_lt hs, Nat.mod_eq_of_lt hs]
  exact ⟨rfl, rfl⟩

/-- The pieces are equally long, but for the first ones, which take one of the items left over. -/
theorem length_pieces (items : List β) (count : Nat) :
    (pieces items count).map List.length = (List.range count).map fun i =>
      if i < items.length % count then items.length / count + 1 else items.length / count := by
  induction count generalizing items with
  | zero => rfl
  | succ count ih =>
    -- `q` items for each piece, and `r` that are left over
    obtain ⟨q, r, hr, hlength⟩ : ∃ q r, r < count + 1 ∧ items.length = (count + 1) * q + r :=
      ⟨items.length / (count + 1), items.length % (count + 1), Nat.mod_lt _ (Nat.succ_pos _),
        (Nat.div_add_mod _ _).symm⟩
    obtain ⟨hdiv, hmod⟩ := divMod_of_lt q hr
    have hexpand : (count + 1) * q = count * q + q := Nat.succ_mul count q
    rw [pieces, List.map_cons, ih, List.length_take, List.length_drop, hlength, hdiv, hmod,
      List.range_succ_eq_map, List.map_cons, List.map_map]
    by_cases hzero : r = 0
    · have hsize : ((count + 1) * q + r + count) / (count + 1) = q := by
        rw [hzero, Nat.add_zero]
        exact (divMod_of_lt q (Nat.lt_succ_self count)).1
      have hrest : (count + 1) * q + r - q = count * q := by omega
      rw [hsize, hrest, hzero, Nat.mul_mod_right]
      congr 1
      · simp only [Nat.lt_irrefl, if_false]
        omega
      · apply List.map_congr_left
        intro i hi
        have hpos : 0 < count := by
          have := List.mem_range.mp hi
          omega
        simp [Nat.mul_div_cancel_left q hpos]
    · have hsize : ((count + 1) * q + r + count) / (count + 1) = q + 1 := by
        have hsplit : (count + 1) * q + r + count = (count + 1) * (q + 1) + (r - 1) := by
          rw [Nat.mul_succ]
          omega
        rw [hsplit]
        exact (divMod_of_lt (q + 1) (by omega)).1
      have hrest : (count + 1) * q + r - (q + 1) = count * q + (r - 1) := by omega
      obtain ⟨hdiv', hmod'⟩ := divMod_of_lt (n := count) (s := r - 1) q (by omega)
      rw [hsize, hrest, hdiv', hmod']
      congr 1
      · rw [if_pos (by omega)]
        omega
      · apply List.map_congr_left
        intro i _
        show _ = if i + 1 < r then q + 1 else q
        by_cases hi : i < r - 1
        · rw [if_pos hi, if_pos (by omega)]
        · rw [if_neg hi, if_neg (by omega)]

theorem mapM_flatten {ε : Type} (f : β → Except ε γ) (groups : List (List β)) :
    groups.flatten.mapM f = (groups.mapM (List.mapM f)).map List.flatten := by
  induction groups with
  | nil => rfl
  | cons group groups ih =>
    rw [List.flatten_cons, List.mapM_append, ih, List.mapM_cons]
    cases group.mapM f with
    | error e => rfl
    | ok results =>
      cases groups.mapM (List.mapM f) with
      | error e => rfl
      | ok rest => rfl

end Pieces

variable {α : Type} [Scalar α]

open Scalar (isNaN)

/-! ## Both kinds of division -/

namespace Action

variable {σ ρ β γ : Type}

theorem change_congr {f f' : σ → Except Fault σ} {s : σ} (h : f s = f' s) :
    change f s = change f' s := by
  unfold change
  rw [h]

theorem onEach_congr {act act' : Action ρ Unit} {xs : List ρ} (h : ∀ x ∈ xs, act x = act' x) :
    onEach act xs = onEach act' xs := by
  induction xs with
  | nil => rfl
  | cons x xs ih =>
    obtain ⟨hx, hxs⟩ := List.forall_mem_cons.mp h
    rw [onEach, onEach, hx, ih hxs]

theorem onFirst_congr {found : ρ → Bool} {missing : Fault} {act act' : Action ρ β} {xs : List ρ}
    (h : ∀ x ∈ xs, act x = act' x) :
    onFirst found missing act xs = onFirst found missing act' xs := by
  induction xs with
  | nil => rfl
  | cons x xs ih =>
    obtain ⟨hx, hxs⟩ := List.forall_mem_cons.mp h
    rw [onFirst, onFirst, hx, ih hxs]

theorem andThen_congr {act act' : Action σ β} {next next' : β → Action σ γ} {s : σ}
    (hact : act s = act' s) (hnext : ∀ b, next b (act s).state = next' b (act s).state) :
    andThen act next s = andThen act' next' s := by
  unfold andThen
  rw [← hact]
  cases hrun : act s with
  | mk t notices answer =>
    rw [hrun] at hnext
    cases answer with
    | error f => rfl
    | ok b =>
      dsimp only
      rw [hnext b]

end Action

/-- All abscissas of the terms are numbers. -/
def Variable.Numeric (v : Variable α) : Prop :=
  ∀ t ∈ v.terms, ∀ p ∈ t.points, isNaN p.x = false

namespace Controller

/-- All abscissas of the terms of the inputs are numbers. -/
def Numeric (c : Controller α) : Prop := ∀ v ∈ c.inputs, v.Numeric

theorem Numeric.of_alike {c d : Controller α} (h : c.Numeric) (hd : c.Alike d) : d.Numeric := by
  have houtline : d.inputs.map Variable.outline = c.inputs.map Variable.outline :=
    congrArg Outline.inputs hd.2
  refine forall_of_map_eq (fun v w hsame hv => ?_) houtline h
  -- the terms of both variables have the same points
  have hpoints : w.terms.map Term.points = v.terms.map Term.points := by
    have hsnd := congrArg (fun o => o.2.map Prod.snd) hsame.symm
    simp only [Variable.outline, List.map_map] at hsnd
    exact hsnd
  exact forall_of_map_eq (fun _ _ hps ht => hps ▸ ht) hpoints hv

variable [Scalar.Ordered α]

theorem fuzzify_division {c : Controller α} (hc : c.Numeric) {x : α} (hx : isNaN x = false)
    (division : Division) (name : String) :
    fuzzify division name x c = fuzzify .total name x c := by
  unfold fuzzify onInput Action.within
  rw [Action.onFirst_congr fun v hv => ?_]
  unfold Variable.fuzzify Action.within
  rw [Action.onEach_congr fun t ht => Action.change_congr ?_]
  exact Term.fuzzify_division (hc v hv t ht) hx division

theorem forEach_fuzzify_division {c : Controller α} (hc : c.Numeric) {values : List (String × α)}
    (hvalues : ∀ p ∈ values, isNaN p.2 = false) (division : Division) :
    Action.forEach values (fun p => fuzzify division p.1 p.2) c =
      Action.forEach values (fun p => fuzzify .total p.1 p.2) c := by
  induction values generalizing c with
  | nil => rfl
  | cons p values ih =>
    obtain ⟨hp, hrest⟩ := List.forall_mem_cons.mp hvalues
    rw [Action.forEach, Action.forEach]
    apply Action.andThen_congr (fuzzify_division hc hp division p.1)
    exact fun _ => ih (hc.of_alike (alike_fuzzify division p.1 p.2 c)) hrest

theorem evaluate_division {c : Controller α} (hc : c.Numeric) {values : List (String × α)}
    (hvalues : ∀ p ∈ values, isNaN p.2 = false) (division : Division) :
    evaluate division values c = evaluate .total values c :=
  Action.andThen_congr (forEach_fuzzify_division hc hvalues division) fun _ => rfl

end Controller

/-! ## Rows -/

theorem Action.exists_leads_iff {σ β : Type} {act : Action σ β} {s : σ} {b : β} :
    (∃ t, act.Leads s t b) ↔ (act s).answer = .ok b := by
  constructor
  · rintro ⟨t, notices, h⟩
    rw [h]
  · intro h
    exact ⟨_, _, by rw [← h]⟩

namespace Controller

variable {c c' d : Controller α} {names : List String} {row : List (String × α)}
  {rows crisps : List (List (String × α))} {crisp : List (String × α)}

/-- A controller that rows with values for some names may have been evaluated with. -/
structure Worn (c : Controller α) (names : List String) (d : Controller α) : Prop where
  operators : d.operators = c.operators
  inputs : c.SameInputs d
  others : ∀ name, name ∉ names → d.input? name = c.input? name
  rules : d.rules.map Rule.fresh = c.rules.map Rule.fresh
  outputs : d.outputs.map OutputVariable.fresh = c.outputs.map OutputVariable.fresh

theorem Worn.refl (c : Controller α) (names : List String) : c.Worn names c :=
  ⟨rfl, fun _ => rfl, fun _ _ => rfl, rfl, rfl⟩

omit [Scalar α] in
theorem map_fst_readingsOf (division : Division) (row : List (String × α)) :
    (readingsOf division row).map Prod.fst = row.map Prod.fst := by
  unfold readingsOf
  rw [List.map_map]
  rfl

-- A variable that is read does not show what it held before.
theorem after_congr {readings : List (String × Reading α)} {name : String} (h : c.SameInputs d)
    (hunread : latest name readings = none → d.input? name = c.input? name) :
    d.after readings name = c.after readings name := by
  unfold after
  cases hlatest : latest name readings with
  | none => exact hunread hlatest
  | some r =>
    have hsame := h name
    dsimp only
    cases hv : c.input? name with
    | none =>
      rw [hv, Option.map_none, Option.map_eq_none_iff] at hsame
      rw [hsame]
    | some v =>
      rw [hv, Option.map_some] at hsame
      obtain ⟨w, hw, hfresh⟩ := Option.map_eq_some_iff.mp hsame
      rw [hw, Option.bind_some, Option.bind_some, Variable.measure_congr r hfresh]

/-- A row gives the same crisp values whatever rows were evaluated before it. -/
theorem Worn.evaluate {division : Division} (hgridded : ∀ o ∈ c.outputs, o.Gridded)
    (hd : c.Worn names d) (hrow : row.map Prod.fst = names)
    (h : (evaluate division row).Leads c c' crisp) :
    ∃ d', (Controller.evaluate division row).Leads d d' crisp ∧ d'.outputs = c'.outputs ∧
      c.Worn names d' := by
  obtain ⟨c₁, hread, hrules, rfl⟩ := leads_evaluate.mp h
  have htakes : ∀ p ∈ readingsOf division row, d.Takes p :=
    fun p hp => (exists_run_iff.mp ⟨c₁, hread⟩ p hp).of_sameInputs hd.inputs
  obtain ⟨d₁, hread'⟩ := exists_run_iff.mpr htakes
  have hc₁ : c.Read (readingsOf division row) c₁ := (show c.Read [] c from after_nil c).run hread
  have hd₁ : d.Read (readingsOf division row) d₁ := (show d.Read [] d from after_nil d).run hread'
  have hunread (name : String) (hnone : latest name (readingsOf division row) = none) :
      d.input? name = c.input? name := by
    rw [latest_eq_none_iff, map_fst_readingsOf, hrow] at hnone
    exact hd.others name hnone
  have hinputs : ∀ name, d₁.input? name = c₁.input? name := by
    intro name
    rw [hd₁ name, hc₁ name, after_congr hd.inputs (hunread name)]
  have hsame : c.SameInputs d₁ := fun name => (SameInputs.of_run hread' name).trans (hd.inputs name)
  obtain ⟨hoperators, hkept, houtputs⟩ := outside_of_run hread
  obtain ⟨hoperators', hkept', houtputs'⟩ := outside_of_run hread'
  obtain ⟨-, -, hfreshRules, hfreshOutputs⟩ := fresh_of_evaluateRules (houtputs ▸ hgridded) hrules
  have hrules' := evaluateRules_congr (c := c₁) (d := d₁)
    (by rw [hoperators', hd.operators, hoperators]) hinputs (by rw [hkept', hd.rules, hkept])
    (by rw [houtputs', hd.outputs, houtputs]) hrules
  refine ⟨_, leads_evaluate.mpr ⟨d₁, hread', hrules', rfl⟩, rfl,
    hoperators'.trans hd.operators, hsame, fun name hname => ?_,
    hfreshRules.trans (congrArg _ hkept), hfreshOutputs.trans (congrArg _ houtputs)⟩
  have hnone : latest name (readingsOf division row) = none := by
    rwa [latest_eq_none_iff, map_fst_readingsOf, hrow]
  show d₁.input? name = c.input? name
  rw [hd₁ name, after, hnone, ← hunread name hnone]

-- Evaluating once more with the same values gives the same outputs.
theorem exists_evaluate_again {division : Division} (hgridded : ∀ o ∈ c.outputs, o.Gridded)
    (h : (evaluate division row).Leads c c' crisp) :
    ∃ d, (evaluate division row).Leads c' d crisp ∧ d.outputs = c'.outputs := by
  obtain ⟨c₁, hfirst, -, hworn⟩ := (Worn.refl c _).evaluate hgridded rfl h
  obtain rfl : c' = c₁ := h.state_eq.symm.trans hfirst.state_eq
  obtain ⟨d, hsecond, houtputs, -⟩ := hworn.evaluate hgridded rfl h
  exact ⟨d, hsecond, houtputs⟩

-- On the total division every value can be taken where one can.
theorem Takes.of_total {name : String} {x : α} (h : c.Takes (name, ⟨.total, x⟩)) (y : α) :
    c.Takes (name, ⟨.total, y⟩) := by
  obtain ⟨v, w, hv, hw⟩ := h
  obtain ⟨terms, hterms, -⟩ := map_eq_ok.mp hw
  have hall : ∀ t ∈ v.terms, ∃ t', Term.fuzzify t .total y = .ok t' := by
    intro t ht
    obtain ⟨t', -, ht'⟩ := exists_mem_of_mapM_eq_ok hterms ht
    obtain ⟨dom, hdom, -⟩ := map_eq_ok.mp ht'
    have hpoints : t.points ≠ [] := by
      intro hnil
      unfold Term.degree at hdom
      rw [hnil] at hdom
      cases hdom
    obtain ⟨dom', hdom'⟩ := Term.exists_degree_total hpoints y
    exact ⟨_, map_eq_ok.mpr ⟨dom', hdom', rfl⟩⟩
  obtain ⟨terms', hterms'⟩ := exists_mapM_eq_ok.mpr hall
  exact ⟨v, _, hv, map_eq_ok.mpr ⟨terms', hterms', rfl⟩⟩

/-- Rows with values for the same names succeed or fail together. -/
theorem exists_evaluate {row' : List (String × α)} (hnames : row'.map Prod.fst = row.map Prod.fst)
    (h : (evaluate .total row).Leads c c' crisp) :
    ∃ d' crisp', (evaluate .total row').Leads c d' crisp' := by
  obtain ⟨c₁, hread, hrules, -⟩ := leads_evaluate.mp h
  have htakes : ∀ p ∈ readingsOf .total row', c.Takes p := by
    intro p hp
    obtain ⟨q, hq, rfl⟩ := List.mem_map.mp hp
    have hmem : q.1 ∈ row.map Prod.fst := hnames ▸ List.mem_map_of_mem hq
    obtain ⟨q', hq', hname⟩ := List.mem_map.mp hmem
    have htake := exists_run_iff.mp ⟨c₁, hread⟩ _ (List.mem_map_of_mem hq')
    rw [hname] at htake
    exact htake.of_total q.2
  obtain ⟨d₁, hread'⟩ := exists_run_iff.mpr htakes
  have hinputs : c₁.SameInputs d₁ :=
    fun name => (SameInputs.of_run hread' name).trans (SameInputs.of_run hread name).symm
  obtain ⟨hoperators, hkept, houtputs⟩ := outside_of_run hread
  obtain ⟨hoperators', hkept', houtputs'⟩ := outside_of_run hread'
  obtain ⟨d', hrules'⟩ := exists_evaluateRules (hoperators'.trans hoperators.symm) hinputs
    (congrArg _ (hkept'.trans hkept.symm)) (congrArg _ (houtputs'.trans houtputs.symm)) hrules
  exact ⟨d', _, leads_evaluate.mpr ⟨_, hread', hrules', rfl⟩⟩

theorem Worn.evaluateRows (hgridded : ∀ o ∈ c.outputs, o.Gridded) (hd : c.Worn names d)
    (hrows : ∀ row ∈ rows, row.map Prod.fst = names)
    (h : rows.mapM (fun row => (Controller.evaluate .total row c).answer) = .ok crisps) :
    (Controller.evaluateRows rows d).answer = .ok crisps := by
  induction rows generalizing d crisps with
  | nil =>
    obtain rfl := Except.ok.inj h
    rfl
  | cons row rows ih =>
    obtain ⟨hfirst, hrest⟩ := List.forall_mem_cons.mp hrows
    rw [mapM_eq_ok, List.forall₂_cons_left_iff] at h
    obtain ⟨crisp, more, hcrisp, hmore, rfl⟩ := h
    obtain ⟨c', hc'⟩ := Action.exists_leads_iff.mpr hcrisp
    obtain ⟨d', ⟨notices, hrun⟩, -, hworn⟩ := hd.evaluate hgridded hfirst hc'
    have hothers := ih hworn hrest (mapM_eq_ok.mpr hmore)
    unfold Controller.evaluateRows at hothers ⊢
    rw [Action.answer_collect_cons, hrun, hothers]
    rfl

theorem evaluateRows_eq (hgridded : ∀ o ∈ c.outputs, o.Gridded)
    (hrows : ∀ row ∈ rows, row.map Prod.fst = names) :
    (evaluateRows rows c).answer = rows.mapM fun row => (evaluate .total row c).answer := by
  cases rows with
  | nil => rfl
  | cons row rows =>
    obtain ⟨hfirst, hrest⟩ := List.forall_mem_cons.mp hrows
    cases hrow : (evaluate .total row c).answer with
    | error f =>
      rw [List.mapM_cons, hrow, evaluateRows, Action.answer_collect_cons, hrow]
      rfl
    | ok crisp =>
      -- the other rows succeed as well
      obtain ⟨c', hc'⟩ := Action.exists_leads_iff.mpr hrow
      have hall : ∀ other ∈ row :: rows, ∃ crisp, (evaluate .total other c).answer = .ok crisp := by
        intro other hother
        obtain ⟨d', crisp', hd'⟩ := exists_evaluate ((hrows other hother).trans hfirst.symm) hc'
        exact ⟨crisp', Action.exists_leads_iff.mp ⟨d', hd'⟩⟩
      obtain ⟨crisps, hcrisps⟩ := exists_mapM_eq_ok.mpr hall
      rw [hcrisps, (Worn.refl c names).evaluateRows hgridded hrows hcrisps]

/-! ## Columns -/

section Columns

variable {β : Type} {columns : List (String × List β)}

/-- How many rows the columns make. -/
def rowCount (columns : List (String × List β)) : Nat :=
  (columns.map fun column => column.2.length).headD 0

theorem eraseDups_replicate (n k : Nat) : (List.replicate (k + 1) n).eraseDups = [n] := by
  have hnone : (List.replicate k n).filter (fun b => !b == n) = [] := by simp
  rw [List.replicate_succ, List.eraseDups_cons, hnone, List.eraseDups_nil]

theorem lengths_eq (h : ∀ column ∈ columns, column.2.length = rowCount columns) :
    (lengths columns).length ≤ 1 ∧ (lengths columns).headD 0 = rowCount columns := by
  have hsame : columns.map (fun column => column.2.length) =
      List.replicate columns.length (rowCount columns) := by
    rw [List.eq_replicate_iff, List.length_map]
    exact ⟨rfl, fun n hn => by
      obtain ⟨column, hcolumn, rfl⟩ := List.mem_map.mp hn
      exact h column hcolumn⟩
  have hsorted : (columns.map fun column => column.2.length).mergeSort =
      List.replicate columns.length (rowCount columns) := by
    rw [hsame]
    exact List.perm_replicate.mp (List.mergeSort_perm _ _)
  unfold lengths
  rw [hsorted]
  cases columns with
  | nil => exact ⟨Nat.zero_le 1, rfl⟩
  | cons column columns =>
    rw [List.length_cons, eraseDups_replicate]
    exact ⟨Nat.le_refl 1, rfl⟩

theorem map_fst_rowAt {i : Nat} (h : ∀ column ∈ columns, i < column.2.length) :
    (rowAt columns i).map Prod.fst = columns.map Prod.fst := by
  induction columns with
  | nil => rfl
  | cons column columns ih =>
    obtain ⟨hfirst, hrest⟩ := List.forall_mem_cons.mp h
    obtain ⟨name, xs⟩ := column
    have hcell : xs[i]? = some xs[i] := List.getElem?_eq_getElem hfirst
    unfold rowAt at ih ⊢
    rw [List.filterMap_cons]
    simp only [hcell, Option.map_some]
    rw [List.map_cons, List.map_cons, ih hrest]

theorem mem_rowAt {i : Nat} {p : String × β} (h : p ∈ rowAt columns i) :
    ∃ column ∈ columns, p.2 ∈ column.2 := by
  obtain ⟨column, hcolumn, hp⟩ := List.mem_filterMap.mp h
  obtain ⟨x, hx, rfl⟩ := Option.map_eq_some_iff.mp hp
  exact ⟨column, hcolumn, List.mem_of_getElem? hx⟩

end Columns

/-! ## Workers -/

variable {columns : List (String × List α)}

theorem check_workerKind (kind : WorkerKind) :
    Choice.workerKind.check (.text kind.label : Setting α) = .ok () := by
  cases kind <;> rfl

theorem given_evaluatePiece (rows : List (List (String × α))) :
    (Workplace.evaluatePiece rows).Moves fun w w' => w'.given = w.given := by
  unfold Workplace.evaluatePiece
  apply Action.moves_bind (R := fun w w' : Workplace α => w'.given = w.given)
  · exact fun _ _ _ h h' => h'.trans h
  · exact fun _ => rfl
  · exact fun _ => Action.moves_within (R := fun _ _ => True) (fun _ => trivial) fun _ _ _ => rfl

theorem answer_evaluatePiece (rows : List (List (String × α))) (w : Workplace α) :
    (Workplace.evaluatePiece rows w).answer = (evaluateRows rows w.given).answer := by
  have htake : Workplace.takeCopy w = ⟨{ w with copy := w.given }, [], .ok ()⟩ := rfl
  unfold Workplace.evaluatePiece
  rw [Action.bind_of_quiet htake]
  rfl

-- No worker changes the controller that all of them are given.
theorem moves_evaluatePieces (work : List (List (List (String × α)))) :
    (evaluatePieces work).Moves fun c c' => c' = c := by
  have hgiven : (gather work Workplace.evaluatePiece).Moves
      fun w w' : Workplace α => w'.given = w.given := by
    apply Action.moves_collect (R := fun w w' : Workplace α => w'.given = w.given)
    · exact fun _ => rfl
    · exact fun _ _ _ h h' => h'.trans h
    · exact given_evaluatePiece
  exact fun c => hgiven ⟨c, c⟩

/-- The workers together give what all the rows give one by one. -/
theorem answer_evaluatePieces {work : List (List (List (String × α)))}
    (hgridded : ∀ o ∈ c.outputs, o.Gridded)
    (hrows : ∀ row ∈ work.flatten, row.map Prod.fst = names) :
    (evaluatePieces work c).answer.map List.flatten =
      work.flatten.mapM fun row => (evaluate .total row c).answer := by
  have hpieces : (evaluatePieces work c).answer =
      work.mapM fun rows => (evaluateRows rows c).answer :=
    Action.answer_collect (f := fun given rows => (evaluateRows rows given).answer)
      given_evaluatePiece answer_evaluatePiece work ⟨c, c⟩
  rw [mapM_flatten, hpieces]
  apply congrArg
  apply mapM_congr
  intro group hgroup
  apply evaluateRows_eq hgridded
  exact fun row hrow => hrows row (List.mem_flatten.mpr ⟨group, hgroup, hrow⟩)

theorem state_evaluateBatch (kind : Setting α) (workers : Nat) (columns : List (String × List α))
    (c : Controller α) : (evaluateBatch kind workers columns c).state = c := by
  have htrans : ∀ s t u : Controller α, t = s → u = t → u = s := fun _ _ _ h h' => h'.trans h
  have hask {β : Type} (f : Controller α → Except Fault β) :
      (Action.ask f).Moves fun s t => t = s := fun _ => rfl
  have hkept : (evaluateBatch kind workers columns).Moves fun s t => t = s := by
    apply Action.moves_bind htrans (hask _)
    intro _
    apply Action.moves_bind htrans (hask _)
    intro _
    dsimp only
    split
    · exact fun _ => rfl
    · exact Action.moves_bind htrans (moves_evaluatePieces _) fun _ => hask _
  exact hkept c

theorem evaluateBatch_eq {workers : Nat} (hworkers : 1 ≤ workers)
    (hgridded : ∀ o ∈ c.outputs, o.Gridded)
    (hnames : ∀ column ∈ columns, (c.input? column.1).isSome = true)
    (hlengths : ∀ column ∈ columns, column.2.length = rowCount columns) (kind : WorkerKind) :
    (evaluateBatch (.text kind.label) workers columns c).answer =
      ((List.range (rowCount columns)).mapM fun i =>
        (evaluate .total (rowAt columns i) c).answer).map c.columnsOf := by
  obtain ⟨hone, hcount⟩ := lengths_eq hlengths
  have hkind : (Choice.workerKind.check (.text kind.label : Setting α)).mapError
      Fault.misconfigured = .ok () := mapError_eq_ok.mpr (check_workerKind kind)
  have hcheck : columns.forM (fun column => c.checkColumn column.1) = .ok () := by
    rw [forM_eq_ok]
    intro column hcolumn
    obtain ⟨v, hv⟩ := Option.isSome_iff_exists.mp (hnames column hcolumn)
    unfold checkColumn
    rw [hv]
  have hrows : ∀ row ∈ (List.range (rowCount columns)).map (rowAt columns),
      row.map Prod.fst = columns.map Prod.fst := by
    intro row hrow
    obtain ⟨i, hi, rfl⟩ := List.mem_map.mp hrow
    exact map_fst_rowAt fun column hcolumn => hlengths column hcolumn ▸ List.mem_range.mp hi
  have hflatten := flatten_shares hworkers ((List.range (rowCount columns)).map (rowAt columns))
  have hresults := answer_evaluatePieces hgridded fun row hrow => hrows row (hflatten ▸ hrow)
  rw [hflatten, List.mapM_map] at hresults
  have hbatch : evaluateBatch (.text kind.label) workers columns c =
      (evaluatePieces (shares ((List.range (rowCount columns)).map (rowAt columns)) workers) >>=
        fun results => Action.ask fun c => .ok (c.columnsOf results.flatten)) c := by
    refine (Action.bind_of_quiet (Action.ask_of_ok (s := c) hkind) _).trans ?_
    refine (Action.bind_of_quiet (Action.ask_of_ok (s := c) hcheck) _).trans ?_
    dsimp only
    rw [if_neg (Nat.not_lt.mpr hone), hcount]
  generalize shares ((List.range (rowCount columns)).map (rowAt columns)) workers = work
    at hresults hbatch
  have hstate := moves_evaluatePieces work c
  show _ = Except.map c.columnsOf
    (List.mapM ((fun row => (evaluate .total row c).answer) ∘ rowAt columns) _)
  rw [hbatch, ← hresults, Action.bind_eq]
  unfold Action.andThen
  cases hrun : evaluatePieces work c with
  | mk d notices answer =>
    rw [hrun] at hstate
    cases answer with
    | error f => rfl
    | ok results =>
      rw [show d = c from hstate]
      rfl

theorem map_fst_of_evaluate {division : Division} (h : (evaluate division row).Leads c c' crisp) :
    crisp.map Prod.fst = c.outputs.map fun o => o.name := by
  obtain ⟨_, -, -, rfl⟩ := leads_evaluate.mp h
  have hsame : c.Alike c' := h.state_eq ▸ alike_evaluate division row c
  have hnames := congrArg (fun o => o.outputs.map fun p => p.1.1) hsame.2
  simp only [outline, List.map_map] at hnames
  unfold crispValues
  rw [List.map_map]
  exact hnames

omit [Scalar α] in
-- No row is lost where every row has a value of the name.
theorem map_some_filterMap_lookup {name : String}
    (h : ∀ crisp ∈ crisps, name ∈ crisp.map Prod.fst) :
    (crisps.filterMap (·.lookup name)).map some = crisps.map (·.lookup name) := by
  induction crisps with
  | nil => rfl
  | cons crisp crisps ih =>
    obtain ⟨hfirst, hrest⟩ := List.forall_mem_cons.mp h
    cases hvalue : crisp.lookup name with
    | none => exact absurd hfirst (lookup_eq_none_iff_not_mem.mp hvalue)
    | some x => rw [List.filterMap_cons_some hvalue, List.map_cons, List.map_cons, ih hrest, hvalue]

/-- Where all abscissas and all values are numbers, a batch holds for every output the crisp values
that its rows give one by one, in their order.  It fails for any of its rows exactly when that row
fails on its own, does not depend on the number and kind of the workers, and leaves the controller
as it is.  The grids have their heights in every controller that operations have built. -/
theorem evaluateBatch_eq_evaluate [Scalar.Ordered α] {workers : Nat} (hworkers : 1 ≤ workers)
    (hgridded : ∀ o ∈ c.outputs, o.Gridded) (hnumeric : c.Numeric)
    (hnames : ∀ column ∈ columns, (c.input? column.1).isSome = true)
    (hlengths : ∀ column ∈ columns, column.2.length = rowCount columns)
    (hvalues : ∀ column ∈ columns, ∀ x ∈ column.2, isNaN x = false) (kind : WorkerKind) :
    let row (i : Nat) := (evaluate .checked (rowAt columns i) c).answer
    let batch := evaluateBatch (.text kind.label) workers columns c
    (∀ crisps, (List.range (rowCount columns)).mapM row = .ok crisps →
      ∃ results, batch.answer = .ok results ∧
        results.map Prod.fst = c.outputs.map (fun o => o.name) ∧
        ∀ p ∈ results, p.2.map some = crisps.map (·.lookup p.1)) ∧
    (∀ i < rowCount columns,
      (∃ results, batch.answer = .ok results) ↔ ∃ crisp, row i = .ok crisp) ∧
    (∀ workers' kind', 1 ≤ workers' →
      (evaluateBatch (.text (WorkerKind.label kind')) workers' columns c).answer =
        batch.answer) ∧
    batch.state = c := by
  intro row batch
  have hrow (i : Nat) : row i = (evaluate .total (rowAt columns i) c).answer := by
    have hnumbers : ∀ p ∈ rowAt columns i, isNaN p.2 = false := by
      intro p hp
      obtain ⟨column, hcolumn, hx⟩ := mem_rowAt hp
      exact hvalues column hcolumn p.2 hx
    exact congrArg Outcome.answer (evaluate_division hnumeric hnumbers .checked)
  have hbatch : batch.answer = ((List.range (rowCount columns)).mapM row).map c.columnsOf := by
    rw [funext hrow]
    exact evaluateBatch_eq hworkers hgridded hnames hlengths kind
  refine ⟨fun crisps hcrisps => ?_, fun i hi => ?_, fun workers' kind' hworkers' => ?_,
    state_evaluateBatch _ workers columns c⟩
  · rw [hbatch, hcrisps]
    refine ⟨c.columnsOf crisps, rfl, ?_, ?_⟩
    · unfold columnsOf
      rw [List.map_map]
      rfl
    · intro p hp
      obtain ⟨o, ho, rfl⟩ := List.mem_map.mp hp
      apply map_some_filterMap_lookup
      intro crisp hcrisp
      obtain ⟨i, -, hi⟩ := mem_of_mapM_eq_ok hcrisps hcrisp
      obtain ⟨c', hc'⟩ := Action.exists_leads_iff.mpr hi
      rw [map_fst_of_evaluate hc']
      exact List.mem_map_of_mem ho
  · rw [hbatch]
    constructor
    · rintro ⟨results, hresults⟩
      obtain ⟨crisps, hcrisps, -⟩ := map_eq_ok.mp hresults
      obtain ⟨crisp, -, hcrisp⟩ := exists_mem_of_mapM_eq_ok hcrisps (List.mem_range.mpr hi)
      exact ⟨crisp, hcrisp⟩
    · rintro ⟨crisp, hcrisp⟩
      rw [hrow] at hcrisp
      obtain ⟨c', hc'⟩ := Action.exists_leads_iff.mpr hcrisp
      -- one row that succeeds brings all the others with it
      have hnamesAt {j : Nat} (hj : j < rowCount columns) :
          (rowAt columns j).map Prod.fst = columns.map Prod.fst :=
        map_fst_rowAt fun column hcolumn => hlengths column hcolumn ▸ hj
      have hall : ∀ j ∈ List.range (rowCount columns), ∃ crisp, row j = .ok crisp := by
        intro j hj
        obtain ⟨d', crisp', hd'⟩ := exists_evaluate
          ((hnamesAt (List.mem_range.mp hj)).trans (hnamesAt hi).symm) hc'
        exact ⟨crisp', (hrow j).trans (Action.exists_leads_iff.mp ⟨d', hd'⟩)⟩
      obtain ⟨crisps, hcrisps⟩ := exists_mapM_eq_ok.mpr hall
      rw [hcrisps]
      exact ⟨c.columnsOf crisps, rfl⟩
  · rw [hbatch, funext hrow]
    exact evaluateBatch_eq hworkers' hgridded hnames hlengths kind'

/-- What the fan of a room measures at three times. -/
def roomColumns : List (String × List Rat) :=
  [("temperature", [0, 12, 30]), ("humidity", [60, 90, 75])]

theorem evaluateBatch_eq_evaluate_roomFan : ∃ results,
    (evaluateBatch (.text "threads") 2 roomColumns roomFan).answer = .ok results ∧
    ∀ p ∈ results, p.2.map some =
      [[("speed", 1 / 2)], [("speed", 5 / 4)], [("speed", 2)]].map (·.lookup p.1) := by
  have hnumeric : roomFan.Numeric := by
    unfold Numeric Variable.Numeric
    decide +kernel
  have hworkers : 1 ≤ 2 := by decide
  have hlengths : ∀ column ∈ roomColumns, column.2.length = rowCount roomColumns := by
    decide +kernel
  obtain ⟨hcolumns, -, -, -⟩ := evaluateBatch_eq_evaluate hworkers gridded_roomFan hnumeric
    (by decide +kernel) hlengths (by decide +kernel) .threads
  obtain ⟨results, hresults, -, hvalues⟩ :=
    hcolumns [[("speed", 1 / 2)], [("speed", 5 / 4)], [("speed", 2)]] (by decide +kernel)
  exact ⟨results, hresults, hvalues⟩

end Controller

end FuzzyInference
