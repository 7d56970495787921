import FuzzyInference.Proofs.Evaluation
import FuzzyInference.Proofs.WellFormed

/-!
# Readings

A reading gives a value to an input variable.  A variable that has been read several times holds the
degrees of its last reading, and which readings succeed does not depend on the degrees before them.
-/

namespace FuzzyInference

/-! ## The latest of several pairs -/

section Latest

variable {β : Type} {name : String} {pairs : List (String × β)}

/-- The last value that a list of pairs gives to a name. -/
def latest (name : String) (pairs : List (String × β)) : Option β := pairs.reverse.lookup name

theorem lookup_cons_eq (p : String × β) :
    (p :: pairs).lookup name = if name = p.1 then some p.2 else pairs.lookup name := by
  rw [List.lookup_cons]
  by_cases h : name = p.1
  · rw [if_pos h, beq_iff_eq.mpr h]
  · rw [if_neg h, beq_eq_false_iff_ne.mpr h]

theorem lookup_eq_none_iff_not_mem : pairs.lookup name = none ↔ name ∉ pairs.map Prod.fst := by
  rw [List.lookup_eq_none_iff, List.mem_map]
  constructor
  · rintro h ⟨p, hp, rfl⟩
    simpa using h p hp
  · intro h p hp
    exact bne_iff_ne.mpr fun hname => h ⟨p, hp, hname.symm⟩

theorem latest_eq_none_iff : latest name pairs = none ↔ name ∉ pairs.map Prod.fst := by
  rw [latest, lookup_eq_none_iff_not_mem, List.map_reverse, List.mem_reverse]

theorem latest_concat (p : String × β) :
    latest name (pairs ++ [p]) = if name = p.1 then some p.2 else latest name pairs := by
  unfold latest
  rw [List.reverse_append]
  exact lookup_cons_eq p

end Latest

/-! ## One variable -/

variable {α : Type}

/-- A value together with what a division by zero does while its degrees are taken. -/
structure Reading (α : Type) where
  division : Division
  value : α
  deriving Repr, DecidableEq

section Variables

variable [Scalar α] {v w : Variable α} {r : Reading α}

/-- The term before it is given a degree. -/
def Term.fresh (t : Term α) : Term α := { t with dom := 0 }

namespace Variable

/-- The variable before its first reading. -/
def fresh (v : Variable α) : Variable α := { v with terms := v.terms.map Term.fresh }

/-- The variable with the degrees of a reading, as a whole or not at all. -/
def measure (r : Reading α) (v : Variable α) : Except Fault (Variable α) :=
  (v.terms.mapM (Term.fuzzify · r.division r.value)).map fun terms => { v with terms }

theorem leads_fuzzify :
    (fuzzify r.division r.value).Leads v w () ↔ v.measure r = .ok w := by
  unfold fuzzify measure
  rw [Action.leads_within, map_eq_ok]
  simp only [Action.leads_onEach, Action.leads_change, mapM_eq_ok, eq_comm (a := w)]

theorem name_of_measure (h : v.measure r = .ok w) : w.name = v.name := by
  obtain ⟨terms, -, rfl⟩ := map_eq_ok.mp h
  rfl

theorem fresh_of_measure (h : v.measure r = .ok w) : w.fresh = v.fresh := by
  obtain ⟨terms, hterms, rfl⟩ := map_eq_ok.mp h
  have hsame : terms.map Term.fresh = v.terms.map Term.fresh := by
    apply Action.map_eq_of_forall₂ _ (mapM_eq_ok.mp hterms)
    intro t t' ht
    obtain ⟨dom, -, rfl⟩ := map_eq_ok.mp ht
    rfl
  unfold fresh
  rw [hsame]

-- The degrees of a reading do not depend on the degrees before it.
theorem measure_fresh (r : Reading α) (v : Variable α) : v.fresh.measure r = v.measure r := by
  unfold measure fresh
  rw [List.mapM_map]
  rfl

theorem measure_congr (r : Reading α) (h : w.fresh = v.fresh) : w.measure r = v.measure r := by
  rw [← measure_fresh, h, measure_fresh]

end Variable

end Variables

/-! ## Items that are found by their name -/

namespace Action

variable {ρ : Type} {missing : Fault} {f : ρ → Except Fault ρ} {xs ys : List ρ}

theorem exists_changeFirst {found : ρ → Bool} {x y : ρ} (hfind : xs.find? found = some x)
    (hf : f x = .ok y) : ∃ ys, changeFirst found missing f xs = .ok ys := by
  induction xs with
  | nil => cases hfind
  | cons z xs ih =>
    rw [changeFirst]
    by_cases hz : found z = true
    · rw [List.find?_cons_of_pos hz] at hfind
      rw [if_pos hz, Option.some.inj hfind, hf]
      exact ⟨y :: xs, rfl⟩
    · rw [List.find?_cons_of_neg hz] at hfind
      obtain ⟨zs, hzs⟩ := ih hfind
      rw [if_neg hz, hzs]
      exact ⟨z :: zs, rfl⟩

-- A change that keeps the key is seen under the name of the item and under no other.
theorem find?_changeFirst {key : ρ → String} {name : String}
    (hkey : ∀ x y, f x = .ok y → key y = key x)
    (h : changeFirst (key · == name) missing f xs = .ok ys) :
    ∃ x y, xs.find? (key · == name) = some x ∧ f x = .ok y ∧ ∀ other,
      ys.find? (key · == other) = if other = name then some y else xs.find? (key · == other) := by
  induction xs generalizing ys with
  | nil => cases h
  | cons z xs ih =>
    rw [changeFirst] at h
    by_cases hz : (key z == name) = true
    · rw [if_pos hz] at h
      obtain ⟨y, hy, rfl⟩ := map_eq_ok.mp h
      refine ⟨z, y, List.find?_cons_of_pos (p := (key · == name)) hz, hy, fun other => ?_⟩
      rw [List.find?_cons, List.find?_cons, hkey z y hy, beq_iff_eq.mp hz]
      by_cases hother : other = name
      · rw [if_pos hother, beq_iff_eq.mpr hother.symm]
      · rw [if_neg hother, beq_eq_false_iff_ne.mpr (Ne.symm hother)]
    · rw [if_neg hz] at h
      obtain ⟨zs, hzs, rfl⟩ := map_eq_ok.mp h
      obtain ⟨x, y, hx, hy, hfound⟩ := ih hzs
      refine ⟨x, y, by rwa [List.find?_cons_of_neg (p := (key · == name)) hz], hy, fun other => ?_⟩
      rw [List.find?_cons, List.find?_cons, hfound other]
      by_cases hother : other = name
      · rw [Bool.not_eq_true] at hz
        rw [hother, hz, if_pos rfl]
      · rw [if_neg hother, if_neg hother]

end Action

/-! ## Controllers -/

namespace Controller

variable [Scalar α] {c d : Controller α} {name : String} {readings more : List (String × Reading α)}

/-- Takes the degrees of a reading. -/
def take (p : String × Reading α) : Action (Controller α) Unit :=
  fuzzify p.2.division p.1 p.2.value

/-- The variable of a name exists and takes the reading. -/
def Takes (c : Controller α) (p : String × Reading α) : Prop :=
  ∃ v w, c.input? p.1 = some v ∧ v.measure p.2 = .ok w

/-- The input variable of a name after some readings: it holds the degrees of the last one that was
its own. -/
def after (c : Controller α) (readings : List (String × Reading α)) (name : String) :
    Option (Variable α) :=
  match latest name readings with
  | none => c.input? name
  | some r => (c.input? name).bind fun v => (v.measure r).toOption

theorem leads_take {p : String × Reading α} :
    (take p).Leads c d () ↔ ∃ inputs,
      Action.changeFirst (fun v => v.name == p.1) (.misconfigured (.unknownInput p.1))
        (Variable.measure p.2) c.inputs = .ok inputs ∧ d = { c with inputs } := by
  unfold take fuzzify onInput
  rw [Action.leads_within]
  simp only [Action.leads_onFirst fun _ _ => Variable.leads_fuzzify]

/-- The controllers have the same input variables up to the degrees of their terms. -/
def SameInputs (c d : Controller α) : Prop :=
  ∀ name, (d.input? name).map Variable.fresh = (c.input? name).map Variable.fresh

theorem Takes.of_sameInputs {p : String × Reading α} (h : c.Takes p) (hsame : c.SameInputs d) :
    d.Takes p := by
  obtain ⟨v, w, hv, hw⟩ := h
  have hfresh := hsame p.1
  rw [hv, Option.map_some] at hfresh
  obtain ⟨v', hv', hfresh⟩ := Option.map_eq_some_iff.mp hfresh
  exact ⟨v', w, hv', by rw [Variable.measure_congr p.2 hfresh, hw]⟩

/-- What a successful reading does to the variables that are found by their names. -/
theorem input?_of_take {p : String × Reading α} (h : (take p).Leads c d ()) :
    ∃ v w, c.input? p.1 = some v ∧ v.measure p.2 = .ok w ∧
      ∀ name, d.input? name = if name = p.1 then some w else c.input? name := by
  obtain ⟨inputs, hchange, rfl⟩ := leads_take.mp h
  exact Action.find?_changeFirst (fun _ _ => Variable.name_of_measure) hchange

theorem SameInputs.of_take {p : String × Reading α} (h : (take p).Leads c d ()) :
    c.SameInputs d := by
  obtain ⟨v, w, hv, hw, hafter⟩ := input?_of_take h
  intro name
  rw [hafter name]
  by_cases hname : name = p.1
  · rw [if_pos hname, hname, hv, Option.map_some, Option.map_some, Variable.fresh_of_measure hw]
  · rw [if_neg hname]

theorem exists_take_iff {p : String × Reading α} : (∃ d, (take p).Leads c d ()) ↔ c.Takes p := by
  constructor
  · rintro ⟨d, h⟩
    obtain ⟨v, w, hv, hw, -⟩ := input?_of_take h
    exact ⟨v, w, hv, hw⟩
  · rintro ⟨v, w, hv, hw⟩
    obtain ⟨inputs, hchange⟩ := Action.exists_changeFirst hv hw
    exact ⟨_, leads_take.mpr ⟨inputs, hchange, rfl⟩⟩

theorem SameInputs.of_run (h : (Action.forEach readings take).Leads c d ()) : c.SameInputs d := by
  induction readings generalizing c with
  | nil =>
    obtain rfl := Action.leads_forEach_nil.mp h
    exact fun _ => rfl
  | cons p readings ih =>
    obtain ⟨c₁, hfirst, hrest⟩ := Action.leads_forEach_cons.mp h
    exact fun name => (ih hrest name).trans (SameInputs.of_take hfirst name)

/-- Readings succeed one after the other exactly if each of them would succeed at once. -/
theorem exists_run_iff :
    (∃ d, (Action.forEach readings take).Leads c d ()) ↔ ∀ p ∈ readings, c.Takes p := by
  induction readings generalizing c with
  | nil =>
    constructor
    · exact fun _ _ hp => absurd hp List.not_mem_nil
    · exact fun _ => ⟨c, Action.leads_forEach_nil.mpr rfl⟩
  | cons p readings ih =>
    rw [List.forall_mem_cons]
    constructor
    · rintro ⟨d, h⟩
      obtain ⟨c₁, hfirst, hrest⟩ := Action.leads_forEach_cons.mp h
      have hback : c₁.SameInputs c := fun name => (SameInputs.of_take hfirst name).symm
      exact ⟨exists_take_iff.mp ⟨c₁, hfirst⟩,
        fun q hq => (ih.mp ⟨d, hrest⟩ q hq).of_sameInputs hback⟩
    · rintro ⟨hp, hreadings⟩
      obtain ⟨c₁, hfirst⟩ := exists_take_iff.mpr hp
      obtain ⟨d, hrest⟩ := ih.mpr fun q hq =>
        (hreadings q hq).of_sameInputs (SameInputs.of_take hfirst)
      exact ⟨d, Action.leads_forEach_cons.mpr ⟨c₁, hfirst, hrest⟩⟩

-- Readings change inputs only.
theorem exists_inputs_of_run (h : (Action.forEach readings take).Leads c d ()) :
    ∃ inputs, d = { c with inputs } := by
  induction readings generalizing c with
  | nil => exact ⟨c.inputs, Action.leads_forEach_nil.mp h⟩
  | cons p readings ih =>
    obtain ⟨c₁, hfirst, hrest⟩ := Action.leads_forEach_cons.mp h
    obtain ⟨_, -, rfl⟩ := leads_take.mp hfirst
    obtain ⟨inputs, hd⟩ := ih hrest
    exact ⟨inputs, hd⟩

theorem outside_of_run (h : (Action.forEach readings take).Leads c d ()) :
    d.operators = c.operators ∧ d.rules = c.rules ∧ d.outputs = c.outputs := by
  obtain ⟨_, rfl⟩ := exists_inputs_of_run h
  exact ⟨rfl, rfl, rfl⟩

theorem after_nil (c : Controller α) (name : String) : c.after [] name = c.input? name := rfl

-- A variable after some readings is the one before them, up to its degrees.
theorem fresh_of_after {v : Variable α} (h : c.after readings name = some v) :
    ∃ w, c.input? name = some w ∧ v.fresh = w.fresh := by
  unfold after at h
  split at h
  · exact ⟨v, h, rfl⟩
  · obtain ⟨w, hw, hmeasure⟩ := Option.bind_eq_some_iff.mp h
    cases hresult : w.measure _ with
    | error f =>
      rw [hresult] at hmeasure
      cases hmeasure
    | ok v' =>
      rw [hresult] at hmeasure
      rw [← Option.some.inj hmeasure]
      exact ⟨w, hw, Variable.fresh_of_measure hresult⟩

theorem after_concat (c : Controller α) (readings : List (String × Reading α))
    (p : String × Reading α) (name : String) :
    c.after (readings ++ [p]) name =
      if name = p.1 then (c.input? p.1).bind fun v => (v.measure p.2).toOption
      else c.after readings name := by
  unfold after
  rw [latest_concat]
  by_cases hname : name = p.1
  · rw [if_pos hname, if_pos hname, hname]
  · rw [if_neg hname, if_neg hname]

/-- Every input variable is what the readings have made of the one in another controller. -/
def Read (c : Controller α) (readings : List (String × Reading α)) (d : Controller α) : Prop :=
  ∀ name, d.input? name = c.after readings name

theorem Read.take {e : Controller α} {p : String × Reading α} (hd : c.Read readings d)
    (h : (take p).Leads d e ()) : c.Read (readings ++ [p]) e := by
  obtain ⟨v, w, hv, hw, hafter⟩ := input?_of_take h
  intro name
  rw [hafter name, after_concat, hd name]
  by_cases hname : name = p.1
  · obtain ⟨v₀, hv₀, hfresh⟩ := fresh_of_after ((hd p.1).symm.trans hv)
    rw [if_pos hname, if_pos hname, hv₀, Option.bind_some, ← Variable.measure_congr p.2 hfresh, hw]
    rfl
  · rw [if_neg hname, if_neg hname]

theorem Read.run {e : Controller α} (hd : c.Read readings d)
    (h : (Action.forEach more Controller.take).Leads d e ()) : c.Read (readings ++ more) e := by
  induction more generalizing readings d with
  | nil =>
    obtain rfl := Action.leads_forEach_nil.mp h
    rwa [List.append_nil]
  | cons p more ih =>
    obtain ⟨d₁, hfirst, hrest⟩ := Action.leads_forEach_cons.mp h
    rw [List.append_cons]
    exact ih (hd.take hfirst) hrest

/-- The readings of an evaluation for the given values. -/
def readingsOf (division : Division) (values : List (String × α)) : List (String × Reading α) :=
  values.map fun p => (p.1, ⟨division, p.2⟩)

/-- A successful evaluation takes the readings of its values first. -/
theorem leads_evaluate {e : Controller α} {division : Division} {values crisp : List (String × α)} :
    (evaluate division values).Leads c e crisp ↔ ∃ d,
      (Action.forEach (readingsOf division values) take).Leads c d () ∧
        evaluateRules.Leads d e () ∧ crisp = e.crispValues := by
  unfold evaluate readingsOf
  rw [Action.leads_bind, Action.forEach_map]
  constructor
  · rintro ⟨d, _, hread, hrest⟩
    obtain ⟨e', _, hrules, hask⟩ := Action.leads_bind.mp hrest
    obtain ⟨rfl, hcrisp⟩ := Action.leads_ask.mp hask
    exact ⟨d, hread, hrules, (Except.ok.inj hcrisp).symm⟩
  · rintro ⟨d, hread, hrules, rfl⟩
    exact ⟨d, (), hread, Action.leads_bind.mpr ⟨e, (), hrules, Action.leads_ask.mpr ⟨rfl, rfl⟩⟩⟩

end Controller

end FuzzyInference
