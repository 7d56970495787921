import FuzzyInference.Proofs.Success

/-!
# What a strength depends on

The check of a rule and the computation of its strength look up the same comparisons in the same
order.  So a rule that passes the check has a strength, both fail at the same comparison if they
fail, and a strength depends on nothing but the degrees of the terms that its comparisons name.
-/

namespace FuzzyInference

theorem Variable.term_eq_error {α : Type} {v : Variable α} {index : Int}
    (h : ¬ (0 ≤ index ∧ index < v.terms.length)) :
    v.term index = .error (.misconfigured (.termIndex index v.name v.terms.length)) := by
  unfold Variable.term
  split
  · rename_i hnonneg
    rw [List.getElem?_eq_none (by omega)]
  · rfl

namespace Condition

variable {α : Type} {inputs inputs' : List (Variable α)} {leaf : Comparison}
  (unknown : String → Misconfiguration)

/-! ## Looking up one comparison -/

/-- One of the variables has the name of the comparison, and a term with its index. -/
def Found (inputs : List (Variable α)) (leaf : Comparison) : Prop :=
  ∃ v, inputs.find? (·.name == leaf.name) = some v ∧ 0 ≤ leaf.term ∧ leaf.term < v.terms.length

/-- What is wrong with a comparison that is not found; a variable that is not there is reported by
`unknown`. -/
def lack (unknown : String → Misconfiguration) (inputs : List (Variable α)) (leaf : Comparison) :
    Misconfiguration :=
  match inputs.find? (·.name == leaf.name) with
  | none => unknown leaf.name
  | some v => .termIndex leaf.term v.name v.terms.length

/-- The degree that the term of a comparison was last given. -/
def dom? (inputs : List (Variable α)) (leaf : Comparison) : Option α :=
  (inputs.find? (·.name == leaf.name)).bind fun v => (v.term leaf.term).toOption.map Term.dom

/-- The term of a comparison, as the check and the strength both look it up. -/
def look (unknown : String → Misconfiguration) (inputs : List (Variable α)) (leaf : Comparison) :
    Except Fault (Term α) :=
  match inputs.find? (·.name == leaf.name) with
  | none => .error (.misconfigured (unknown leaf.name))
  | some v => v.term leaf.term

theorem degree_eq_look [Scalar α] (inputs : List (Variable α)) (leaf : Comparison) :
    degree inputs leaf = (look .unknownInConditions inputs leaf).map fun t =>
      if leaf.negated then complement t.dom else t.dom := by
  unfold degree look
  cases inputs.find? (·.name == leaf.name) with
  | none => rfl
  | some v => rfl

theorem checkComparison_eq_look (c : Controller α) (leaf : Comparison) :
    c.checkComparison leaf = (look .unknownRuleInput c.inputs leaf).map fun _ => () := by
  unfold Controller.checkComparison Controller.input? look
  cases c.inputs.find? (·.name == leaf.name) with
  | none => rfl
  | some v => rfl

theorem exists_look_iff : (∃ t, look unknown inputs leaf = .ok t) ↔ Found inputs leaf := by
  unfold look Found
  cases inputs.find? (·.name == leaf.name) with
  | none => simp
  | some v => simpa using Variable.exists_term_iff

theorem look_of_not_found (h : ¬ Found inputs leaf) :
    look unknown inputs leaf = .error (.misconfigured (lack unknown inputs leaf)) := by
  rw [← exists_look_iff unknown] at h
  unfold look lack at *
  cases hv : inputs.find? (·.name == leaf.name) with
  | none => rfl
  | some v =>
    rw [hv] at h
    exact Variable.term_eq_error (mt Variable.exists_term_iff.mpr h)

theorem isSome_dom? : (dom? inputs leaf).isSome = true ↔ Found inputs leaf := by
  rw [← exists_look_iff .unknownInConditions]
  unfold dom? look
  cases inputs.find? (·.name == leaf.name) with
  | none => simp
  | some v =>
    show ((v.term leaf.term).toOption.map Term.dom).isSome = true ↔ ∃ t, v.term leaf.term = .ok t
    cases v.term leaf.term with
    | error f => simp [Except.toOption]
    | ok t => simp [Except.toOption]

instance : Decidable (Found inputs leaf) := decidable_of_iff _ isSome_dom?

/-! ## The first comparison that is not found -/

/-- The leftmost comparison of a condition that is not found. -/
def firstLost? (inputs : List (Variable α)) (c : Condition) : Option Comparison :=
  c.leaves.find? fun leaf => !decide (Found inputs leaf)

theorem firstLost?_eq_none {c : Condition} :
    firstLost? inputs c = none ↔ ∀ leaf ∈ c.leaves, Found inputs leaf := by
  simp [firstLost?]

/-- Looks up all comparisons of a condition from left to right. -/
def lookAll (unknown : String → Misconfiguration) (inputs : List (Variable α)) (c : Condition) :
    Except Fault Unit :=
  c.leaves.forM fun leaf => (look unknown inputs leaf).map fun _ => ()

theorem lookAll_eq_ok {c : Condition} :
    lookAll unknown inputs c = .ok () ↔ ∀ leaf ∈ c.leaves, Found inputs leaf := by
  simp only [lookAll, forM_eq_ok, map_eq_ok, and_true, exists_look_iff]

theorem lookAll_of_firstLost {c : Condition} (h : firstLost? inputs c = some leaf) :
    lookAll unknown inputs c = .error (.misconfigured (lack unknown inputs leaf)) := by
  obtain ⟨hlost, before, after, hleaves, hbefore⟩ := List.find?_eq_some_iff_append.mp h
  refine forM_eq_error.mpr ⟨before, leaf, after, hleaves, fun d hd => ?_, ?_⟩
  · obtain ⟨t, ht⟩ := (exists_look_iff unknown).mpr (by simpa using hbefore d hd)
    rw [ht]
    rfl
  · rw [look_of_not_found unknown (by simpa using hlost)]
    rfl

/-! ## Strengths and checks -/

theorem checkRule_eq_lookAll (c : Controller α) (r : Rule α) :
    c.checkRule r = lookAll .unknownRuleInput c.inputs r.condition >>= fun _ =>
      c.checkConclusion r.conclusion := by
  unfold Controller.checkRule lookAll
  rw [funext (checkComparison_eq_look c)]

theorem joint_map_unit {x y : Except Fault α} {f : α → α → α} :
    ((do let a ← x; let b ← y; return f a b).map fun _ => ()) =
      (x.map fun _ => ()) >>= fun _ => y.map fun _ => () := by
  cases x with
  | error e => rfl
  | ok a =>
    cases y with
    | error e => rfl
    | ok b => rfl

variable [Scalar α]

/-- Whether there is a strength, and what is reported if there is none, is decided by looking up the
comparisons from left to right. -/
theorem strength_map_unit (inputs : List (Variable α)) (pair : NormPair) (c : Condition) :
    ((c.strength inputs pair).map fun _ => ()) = lookAll .unknownInConditions inputs c := by
  induction c with
  | is leaf =>
    show ((degree inputs leaf).map fun _ => ()) =
      ((look .unknownInConditions inputs leaf).map fun _ => ()) >>= fun _ => pure ()
    rw [degree_eq_look]
    cases look .unknownInConditions inputs leaf with
    | error f => rfl
    | ok t => rfl
  | and l r ihl ihr =>
    rw [strength, joint_map_unit, ihl, ihr]
    exact List.forM_append.symm
  | or l r ihl ihr =>
    rw [strength, joint_map_unit, ihl, ihr]
    exact List.forM_append.symm

theorem strength_of_firstLost (pair : NormPair) {c : Condition} (h : firstLost? inputs c = some leaf) :
    c.strength inputs pair = .error (.misconfigured (lack .unknownInConditions inputs leaf)) := by
  have hunit := (strength_map_unit inputs pair c).trans (lookAll_of_firstLost _ h)
  cases hstrength : c.strength inputs pair with
  | error f =>
    rw [hstrength] at hunit
    exact congrArg Except.error (Except.error.inj hunit)
  | ok s =>
    rw [hstrength] at hunit
    cases hunit

theorem exists_strength_iff_found {pair : NormPair} {c : Condition} :
    (∃ s, c.strength inputs pair = .ok s) ↔ ∀ leaf ∈ c.leaves, Found inputs leaf := by
  rw [← lookAll_eq_ok .unknownInConditions, ← strength_map_unit inputs pair, map_eq_ok]
  exact exists_congr fun s => (and_iff_left rfl).symm

/-! ## Equal degrees -/

theorem degree_eq_ok {a : α} : degree inputs leaf = .ok a ↔
    ∃ d, dom? inputs leaf = some d ∧ (if leaf.negated then complement d else d) = a := by
  unfold degree dom?
  cases inputs.find? (·.name == leaf.name) with
  | none => simp
  | some v =>
    show (v.term leaf.term).map _ = .ok a ↔ ∃ d, (v.term leaf.term).toOption.map Term.dom = some d ∧ _
    cases v.term leaf.term with
    | error f => simp [Except.map, Except.toOption]
    | ok t => simp [Except.map, Except.toOption]

-- One direction is enough, as the hypothesis is symmetric.
theorem strength_of_dom? {pair : NormPair} {c : Condition} {s : α}
    (h : ∀ leaf ∈ c.leaves, dom? inputs' leaf = dom? inputs leaf)
    (hs : c.strength inputs pair = .ok s) : c.strength inputs' pair = .ok s := by
  induction c generalizing s with
  | is leaf =>
    have hdom : dom? inputs' leaf = dom? inputs leaf := h leaf (List.mem_singleton_self leaf)
    obtain ⟨d, hd, hs⟩ := degree_eq_ok.mp hs
    exact degree_eq_ok.mpr ⟨d, hdom.trans hd, hs⟩
  | and l r ihl ihr =>
    obtain ⟨hl, hr⟩ := List.forall_mem_append.mp h
    obtain ⟨a, ha, hs⟩ := bind_eq_ok.mp hs
    obtain ⟨b, hb, hs⟩ := bind_eq_ok.mp hs
    exact bind_eq_ok.mpr ⟨a, ihl hl ha, bind_eq_ok.mpr ⟨b, ihr hr hb, hs⟩⟩
  | or l r ihl ihr =>
    obtain ⟨hl, hr⟩ := List.forall_mem_append.mp h
    obtain ⟨a, ha, hs⟩ := bind_eq_ok.mp hs
    obtain ⟨b, hb, hs⟩ := bind_eq_ok.mp hs
    exact bind_eq_ok.mpr ⟨a, ihl hl ha, bind_eq_ok.mpr ⟨b, ihr hr hb, hs⟩⟩

/-- The comparisons of a condition are the support of its strength.  There is a strength just when
all of them are found; else the strength and the check of a rule with this condition both report the
leftmost one that is not.  Inputs that agree on the degrees of their terms give one strength. -/
theorem strength_supported (inputs : List (Variable α)) (pair : NormPair) (condition : Condition) :
    ((∃ s, condition.strength inputs pair = .ok s) ↔ ∀ leaf ∈ condition.leaves, Found inputs leaf) ∧
    ((∀ leaf ∈ condition.leaves, Found inputs leaf) →
      ∀ (base : Controller α) (conclusion : Conclusion α) (level : α),
        ({ base with inputs } : Controller α).checkRule ⟨condition, conclusion, level⟩ =
          base.checkConclusion conclusion) ∧
    ((¬ ∀ leaf ∈ condition.leaves, Found inputs leaf) →
      ∃ leaf, firstLost? inputs condition = some leaf ∧
        condition.strength inputs pair =
          .error (.misconfigured (lack .unknownInConditions inputs leaf)) ∧
        ∀ (base : Controller α) (conclusion : Conclusion α) (level : α),
          ({ base with inputs } : Controller α).checkRule ⟨condition, conclusion, level⟩ =
            .error (.misconfigured (lack .unknownRuleInput inputs leaf))) ∧
    ∀ inputs', (∀ leaf ∈ condition.leaves, dom? inputs' leaf = dom? inputs leaf) →
      ∀ s, condition.strength inputs' pair = .ok s ↔ condition.strength inputs pair = .ok s := by
  refine ⟨exists_strength_iff_found, fun hfound base conclusion level => ?_, fun hlost => ?_,
    fun inputs' hdoms s => ?_⟩
  · rw [checkRule_eq_lookAll, (lookAll_eq_ok _).mpr hfound]
    rfl
  · obtain ⟨leaf, hleaf⟩ := Option.ne_none_iff_exists'.mp (mt firstLost?_eq_none.mp hlost)
    refine ⟨leaf, hleaf, strength_of_firstLost pair hleaf, fun base conclusion level => ?_⟩
    rw [checkRule_eq_lookAll, lookAll_of_firstLost _ hleaf]
    rfl
  · exact ⟨strength_of_dom? fun leaf hleaf => (hdoms leaf hleaf).symm, strength_of_dom? hdoms⟩

/-- A room in which it is warm and a little damp, with terms of any shape. -/
def room (shape : List (Point Rat)) : List (Variable Rat) :=
  [⟨"air", [⟨"warm", shape, 3 / 4, []⟩, ⟨"damp", shape, 1 / 4, []⟩]⟩]

/-- It is warm and not damp. -/
def mild : Condition := .and (.is ⟨"air", 0, false⟩) (.is ⟨"air", 1, true⟩)

/-- It is warm, and the air has a third term, or there is a lamp with a term. -/
def puzzling : Condition :=
  .and (.is ⟨"air", 0, false⟩) (.or (.is ⟨"air", 2, true⟩) (.is ⟨"lamp", 0, false⟩))

theorem strength_supported_room :
    (∀ shape, mild.strength (room shape) .minMax = .ok (3 / 4)) ∧
    puzzling.strength (room []) .minMax = .error (.misconfigured (.termIndex 2 "air" 2)) ∧
    ∀ (base : Controller Rat) (conclusion : Conclusion Rat) (level : Rat),
      ({ base with inputs := room [] } : Controller Rat).checkRule ⟨puzzling, conclusion, level⟩ =
        .error (.misconfigured (.termIndex 2 "air" 2)) := by
  have hmild : mild.strength (room []) .minMax = .ok (3 / 4) := by decide +kernel
  have hfirst : firstLost? (room []) puzzling = some ⟨"air", 2, true⟩ := by decide +kernel
  obtain ⟨-, -, -, hagree⟩ := strength_supported (room []) .minMax mild
  obtain ⟨-, -, hlost, -⟩ := strength_supported (room []) .minMax puzzling
  obtain ⟨leaf, hleaf, hstrength, hcheck⟩ := hlost (by decide +kernel)
  obtain rfl := Option.some.inj (hfirst.symm.trans hleaf)
  have hdoms (shape : List (Point Rat)) :
      ∀ leaf ∈ mild.leaves, dom? (room shape) leaf = dom? (room []) leaf :=
    List.forall_mem_cons.mpr ⟨rfl, List.forall_mem_singleton.mpr rfl⟩
  exact ⟨fun shape => (hagree (room shape) (hdoms shape) _).mpr hmild, hstrength, hcheck⟩

end Condition

end FuzzyInference
