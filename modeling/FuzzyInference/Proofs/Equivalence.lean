import FuzzyInference.Proofs.RankedValues
import FuzzyInference.Proofs.Reachable
import Mathlib.Data.List.Perm.Basic

/-!
# Equivalent rules

Equivalence is reflexive, symmetric and transitive.  Equivalent conditions have one strength,
whatever the order of their operands, so over the rationals it cannot be seen which rule of a class
is kept.
-/

namespace FuzzyInference

namespace Condition

variable {c d e l r : Condition}

theorem equivalent_is_iff {leaf : Comparison} : (is leaf).equivalent d = true ↔ d = is leaf := by
  cases d with
  | is other =>
    simp only [equivalent, beq_iff_eq, is.injEq]
    exact eq_comm
  | and l r => simp [equivalent]
  | or l r => simp [equivalent]

theorem equivalent_and_iff : (and l r).equivalent d = true ↔ ∃ l' r', d = and l' r' ∧
    (l.equivalent l' = true ∧ r.equivalent r' = true ∨
      l.equivalent r' = true ∧ r.equivalent l' = true) := by
  cases d with
  | is leaf => simp [equivalent]
  | and l' r' => simp [equivalent]
  | or l' r' => simp [equivalent]

theorem equivalent_or_iff : (or l r).equivalent d = true ↔ ∃ l' r', d = or l' r' ∧
    (l.equivalent l' = true ∧ r.equivalent r' = true ∨
      l.equivalent r' = true ∧ r.equivalent l' = true) := by
  cases d with
  | is leaf => simp [equivalent]
  | and l' r' => simp [equivalent]
  | or l' r' => simp [equivalent]

theorem equivalent_refl (c : Condition) : c.equivalent c = true := by
  induction c with
  | is leaf => exact equivalent_is_iff.mpr rfl
  | and l r ihl ihr => exact equivalent_and_iff.mpr ⟨l, r, rfl, .inl ⟨ihl, ihr⟩⟩
  | or l r ihl ihr => exact equivalent_or_iff.mpr ⟨l, r, rfl, .inl ⟨ihl, ihr⟩⟩

theorem equivalent_symm (h : c.equivalent d = true) : d.equivalent c = true := by
  induction c generalizing d with
  | is leaf =>
    rw [equivalent_is_iff.mp h]
    exact equivalent_refl (is leaf)
  | and l r ihl ihr =>
    obtain ⟨l', r', rfl, hsame | hcrossed⟩ := equivalent_and_iff.mp h
    · exact equivalent_and_iff.mpr ⟨l, r, rfl, .inl ⟨ihl hsame.1, ihr hsame.2⟩⟩
    · exact equivalent_and_iff.mpr ⟨l, r, rfl, .inr ⟨ihr hcrossed.2, ihl hcrossed.1⟩⟩
  | or l r ihl ihr =>
    obtain ⟨l', r', rfl, hsame | hcrossed⟩ := equivalent_or_iff.mp h
    · exact equivalent_or_iff.mpr ⟨l, r, rfl, .inl ⟨ihl hsame.1, ihr hsame.2⟩⟩
    · exact equivalent_or_iff.mpr ⟨l, r, rfl, .inr ⟨ihr hcrossed.2, ihl hcrossed.1⟩⟩

-- Two exchanges of operands cancel, one of them alone remains.
theorem crossed_trans {l r l' r' l'' r'' : Condition}
    (hl : ∀ {d e}, l.equivalent d = true → d.equivalent e = true → l.equivalent e = true)
    (hr : ∀ {d e}, r.equivalent d = true → d.equivalent e = true → r.equivalent e = true)
    (h : l.equivalent l' = true ∧ r.equivalent r' = true ∨
      l.equivalent r' = true ∧ r.equivalent l' = true)
    (h' : l'.equivalent l'' = true ∧ r'.equivalent r'' = true ∨
      l'.equivalent r'' = true ∧ r'.equivalent l'' = true) :
    l.equivalent l'' = true ∧ r.equivalent r'' = true ∨
      l.equivalent r'' = true ∧ r.equivalent l'' = true := by
  -- two crossings make the straight pairing again
  rcases h with ⟨h₁, h₂⟩ | ⟨h₁, h₂⟩
  · rcases h' with ⟨h₁', h₂'⟩ | ⟨h₁', h₂'⟩
    · exact .inl ⟨hl h₁ h₁', hr h₂ h₂'⟩
    · exact .inr ⟨hl h₁ h₁', hr h₂ h₂'⟩
  · rcases h' with ⟨h₁', h₂'⟩ | ⟨h₁', h₂'⟩
    · exact .inr ⟨hl h₁ h₂', hr h₂ h₁'⟩
    · exact .inl ⟨hl h₁ h₂', hr h₂ h₁'⟩

theorem equivalent_trans (h : c.equivalent d = true) (h' : d.equivalent e = true) :
    c.equivalent e = true := by
  induction c generalizing d e with
  | is leaf => rwa [equivalent_is_iff.mp h] at h'
  | and l r ihl ihr =>
    obtain ⟨l', r', rfl, hfirst⟩ := equivalent_and_iff.mp h
    obtain ⟨l'', r'', rfl, hsecond⟩ := equivalent_and_iff.mp h'
    exact equivalent_and_iff.mpr ⟨l'', r'', rfl, crossed_trans ihl ihr hfirst hsecond⟩
  | or l r ihl ihr =>
    obtain ⟨l', r', rfl, hfirst⟩ := equivalent_or_iff.mp h
    obtain ⟨l'', r'', rfl, hsecond⟩ := equivalent_or_iff.mp h'
    exact equivalent_or_iff.mpr ⟨l'', r'', rfl, crossed_trans ihl ihr hfirst hsecond⟩

end Condition

/-! ## Strengths of conditions -/

section Strengths

open Scalar (Regular same_iff)
open Scalar.Ranked (rank)

variable {α : Type} [Scalar α] [Regular α]

/-- Both strengths are one number, up to the sign of a zero, or both are refused. -/
inductive SameStrength : Except Fault α → Except Fault α → Prop
  | ok {a b : α} : Scalar.Same a b → SameStrength (.ok a) (.ok b)
  | refused (cause cause' : Misconfiguration) :
    SameStrength (.error (.misconfigured cause)) (.error (.misconfigured cause'))

namespace SameStrength

variable {x x' y y' : Except Fault α} {joint : α → α → α}

theorem pair (hx : SameStrength x x') (hy : SameStrength y y')
    (hjoint : ∀ a a' b b', rank a = rank a' → rank b = rank b' →
      rank (joint a b) = rank (joint a' b')) :
    SameStrength (do let a ← x; let b ← y; return joint a b)
      (do let a ← x'; let b ← y'; return joint a b) := by
  cases hx with
  | refused cause cause' => exact .refused cause cause'
  | ok hx =>
    cases hy with
    | refused cause cause' => exact .refused cause cause'
    | ok hy =>
      exact .ok (same_iff.mpr (hjoint _ _ _ _ (same_iff.mp hx) (same_iff.mp hy)))

-- The operand that is refused first need not be the same one.
theorem crossed (hx : SameStrength x y') (hy : SameStrength y x')
    (hjoint : ∀ a a' b b', rank a = rank a' → rank b = rank b' →
      rank (joint a b) = rank (joint a' b'))
    (hcomm : ∀ a b, rank (joint a b) = rank (joint b a)) :
    SameStrength (do let a ← x; let b ← y; return joint a b)
      (do let a ← x'; let b ← y'; return joint a b) := by
  cases hx with
  | refused cause cause' =>
    cases hy with
    | refused _ first => exact .refused cause first
    | ok _ => exact .refused cause cause'
  | ok hx =>
    cases hy with
    | refused cause cause' => exact .refused cause cause'
    | ok hy =>
      refine .ok (same_iff.mpr ?_)
      rw [hcomm]
      exact hjoint _ _ _ _ (same_iff.mp hy) (same_iff.mp hx)

theorem toOption_rat {x y : Except Fault Rat} (h : SameStrength x y) :
    x.toOption = y.toOption := by
  cases h with
  | refused cause cause' => rfl
  | ok h => exact same_iff.mp h

end SameStrength

omit [Regular α] in
theorem Condition.misconfigured_of_degree {inputs : List (Variable α)} {leaf : Comparison}
    {f : Fault} (h : degree inputs leaf = .error f) : ∃ cause, f = .misconfigured cause := by
  unfold degree at h
  split at h
  · exact ⟨_, (Except.error.inj h).symm⟩
  · rename_i v hv
    cases hterm : v.term leaf.term with
    | ok t =>
      rw [hterm] at h
      cases h
    | error g =>
      rw [hterm] at h
      obtain rfl := Except.error.inj h
      exact Variable.misconfigured_of_term hterm

/-- Equivalent conditions have one strength. -/
theorem Condition.sameStrength_of_equivalent (inputs : List (Variable α)) (pair : NormPair)
    {c d : Condition} (h : c.equivalent d = true) :
    SameStrength (c.strength inputs pair) (d.strength inputs pair) := by
  induction c generalizing d with
  | is leaf =>
    rw [equivalent_is_iff.mp h]
    show SameStrength (degree inputs leaf) (degree inputs leaf)
    cases hdegree : degree inputs leaf with
    | ok a => exact .ok (same_iff.mpr rfl)
    | error f =>
      obtain ⟨cause, rfl⟩ := misconfigured_of_degree hdegree
      exact .refused cause cause
  | and l r ihl ihr =>
    obtain ⟨l', r', rfl, hsame | hcrossed⟩ := equivalent_and_iff.mp h
    · exact (ihl hsame.1).pair (ihr hsame.2) fun _ _ _ _ => pair.rank_conjunction
    · exact (ihl hcrossed.1).crossed (ihr hcrossed.2) (fun _ _ _ _ => pair.rank_conjunction)
        pair.rank_conjunction_comm
  | or l r ihl ihr =>
    obtain ⟨l', r', rfl, hsame | hcrossed⟩ := equivalent_or_iff.mp h
    · exact (ihl hsame.1).pair (ihr hsame.2) fun _ _ _ _ => pair.rank_disjunction
    · exact (ihl hcrossed.1).crossed (ihr hcrossed.2) (fun _ _ _ _ => pair.rank_disjunction)
        pair.rank_disjunction_comm

end Strengths

/-! ## Rational degrees -/

theorem Scalar.isNaN_rat (a : Rat) : isNaN a = false := by
  unfold isNaN
  rw [beq_self_eq_true a, Bool.not_true]

theorem Scalar.minimum_rat (a b : Rat) : minimum a b = min a b :=
  Option.some.inj (rank_minimum a b)

theorem Scalar.maximum_rat (a b : Rat) : maximum a b = max a b :=
  Option.some.inj (rank_maximum a b)

-- The faults may differ, because the left operand is always the first that can fail.
theorem Condition.strength_of_equivalent {inputs : List (Variable Rat)} {pair : NormPair}
    {c d : Condition} (h : c.equivalent d = true) :
    (c.strength inputs pair).toOption = (d.strength inputs pair).toOption :=
  (sameStrength_of_equivalent inputs pair h).toOption_rat

/-! ## One rule of each class -/

namespace Rule

theorem equivalent_iff {r s : Rule Rat} :
    r.equivalent s = true ↔ r.condition.equivalent s.condition = true ∧
      r.conclusion = s.conclusion := by
  cases r with | mk condition conclusion level =>
  cases s with | mk condition' conclusion' level' =>
  cases conclusion with | mk name term weight =>
  cases conclusion' with | mk name' term' weight' =>
  simp only [equivalent, Bool.and_eq_true, beq_iff_eq, and_assoc, Conclusion.mk.injEq]

theorem equivalence : Equivalence fun r s : Rule Rat => r.equivalent s = true where
  refl r := equivalent_iff.mpr ⟨r.condition.equivalent_refl, rfl⟩
  symm h :=
    let ⟨hcondition, hconclusion⟩ := equivalent_iff.mp h
    equivalent_iff.mpr ⟨Condition.equivalent_symm hcondition, hconclusion.symm⟩
  trans h h' :=
    let ⟨hcondition, hconclusion⟩ := equivalent_iff.mp h
    let ⟨hcondition', hconclusion'⟩ := equivalent_iff.mp h'
    equivalent_iff.mpr
      ⟨Condition.equivalent_trans hcondition hcondition', hconclusion.trans hconclusion'⟩

instance setoid : Setoid (Rule Rat) := ⟨fun r s => r.equivalent s = true, equivalence⟩

/-- The class of the rules that say the same as a rule. -/
def kind (r : Rule Rat) : Quotient setoid := Quotient.mk setoid r

theorem kind_eq_iff {r s : Rule Rat} : r.kind = s.kind ↔ r.equivalent s = true := Quotient.eq

end Rule

theorem mem_kinds_withRule {kept : List (Rule Rat)} {r : Rule Rat} (k : Quotient Rule.setoid) :
    k ∈ (Fcl.withRule kept r).map Rule.kind ↔ k ∈ kept.map Rule.kind ∨ k = r.kind := by
  unfold Fcl.withRule
  split
  · rename_i hany
    obtain ⟨s, hs, hsame⟩ := List.any_eq_true.mp hany
    have hkind : r.kind ∈ kept.map Rule.kind :=
      List.mem_map.mpr ⟨s, hs, Rule.kind_eq_iff.mpr hsame⟩
    constructor
    · exact Or.inl
    · rintro (h | rfl)
      · exact h
      · exact hkind
  · rw [List.map_append, List.mem_append, List.map_singleton, List.mem_singleton]

theorem mem_kinds_foldl {kept rules : List (Rule Rat)} (k : Quotient Rule.setoid) :
    k ∈ (rules.foldl Fcl.withRule kept).map Rule.kind ↔
      k ∈ kept.map Rule.kind ∨ k ∈ rules.map Rule.kind := by
  induction rules generalizing kept with
  | nil => simp
  | cons r rules ih =>
    rw [List.foldl_cons, ih, mem_kinds_withRule, List.map_cons, List.mem_cons, or_assoc]

theorem nodup_kinds {rules : List (Rule Rat)} (h : RulesDistinct rules) :
    (rules.map Rule.kind).Nodup := by
  unfold List.Nodup
  rw [List.pairwise_map]
  apply h.imp
  intro r s hrs hkind
  rw [Rule.kind_eq_iff.mp hkind] at hrs
  cases hrs

theorem kinds_firstOfEach_perm {rules rules' : List (Rule Rat)} (h : rules.Perm rules') :
    ((firstOfEach Rule.equivalent rules).map Rule.kind).Perm
      ((firstOfEach Rule.equivalent rules').map Rule.kind) := by
  apply (List.perm_ext_iff_of_nodup (nodup_kinds (rulesDistinct_firstOfEach rules))
    (nodup_kinds (rulesDistinct_firstOfEach rules'))).mpr
  intro k
  have hmem (items : List (Rule Rat)) :
      k ∈ (firstOfEach Rule.equivalent items).map Rule.kind ↔ k ∈ items.map Rule.kind := by
    show k ∈ (items.foldl Fcl.withRule []).map Rule.kind ↔ _
    rw [mem_kinds_foldl, List.map_nil]
    exact or_iff_right List.not_mem_nil
  rw [hmem, hmem]
  exact (h.map Rule.kind).mem_iff

/-- What does not distinguish equivalent rules does not notice the order in which rules are given,
although other rules may be kept. -/
theorem map_firstOfEach_perm {β : Type} {f : Rule Rat → β}
    (hf : ∀ r s : Rule Rat, r.equivalent s = true → f r = f s) {rules rules' : List (Rule Rat)}
    (h : rules.Perm rules') :
    ((firstOfEach Rule.equivalent rules).map f).Perm
      ((firstOfEach Rule.equivalent rules').map f) := by
  have hlift (items : List (Rule Rat)) :
      items.map f = (items.map Rule.kind).map (Quotient.lift f hf) := by
    rw [List.map_map]
    rfl
  rw [hlift, hlift]
  exact (kinds_firstOfEach_perm h).map _

end FuzzyInference
