import FuzzyInference.Proofs.ClosedForm
import FuzzyInference.Proofs.Hashes

/-!
# Rules that are set together

Setting rules together checks all of them before it changes anything.  What it leaves is what adding
them one by one leaves: the rules that no equivalent rule precedes, in their order.  A dictionary
finds them, whichever hashes it uses.
-/

namespace FuzzyInference

/-! ## The first rule of each class -/

namespace Rule

variable {α : Type} [Scalar α] {r s t : Rule α} {rules : List (Rule α)}

theorem equivalent_trans [Scalar.Ranked α] (h : r.equivalent s = true)
    (h' : s.equivalent t = true) : r.equivalent t = true := by
  obtain ⟨hcondition, hname, hterm, hweight⟩ := equivalent_iff_fields.mp h
  obtain ⟨hcondition', hname', hterm', hweight'⟩ := equivalent_iff_fields.mp h'
  obtain ⟨p, hr, hs⟩ := Scalar.Ranked.beq_iff.mp hweight
  obtain ⟨q, hs', ht⟩ := Scalar.Ranked.beq_iff.mp hweight'
  obtain rfl := Option.some.inj (hs.symm.trans hs')
  exact equivalent_iff_fields.mpr ⟨Condition.equivalent_trans hcondition hcondition',
    hname.trans hname', hterm.trans hterm', Scalar.Ranked.beq_iff.mpr ⟨p, hr, ht⟩⟩

/-- The rules that no equivalent rule precedes, in their order. -/
def firsts (rules : List (Rule α)) : List (Rule α) :=
  (rules.zipIdx.filter fun p => !(rules.take p.2).any (·.equivalent p.1)).map Prod.fst

theorem firsts_append_singleton (rules : List (Rule α)) (r : Rule α) :
    firsts (rules ++ [r]) =
      if rules.any (·.equivalent r) then firsts rules else firsts rules ++ [r] := by
  -- what precedes a rule stays the same
  have hkept : (rules.zipIdx.filter fun p => !((rules ++ [r]).take p.2).any (·.equivalent p.1)) =
      rules.zipIdx.filter fun p => !(rules.take p.2).any (·.equivalent p.1) := by
    refine List.filter_congr fun p hp => ?_
    rw [List.take_append_of_le_length (List.snd_lt_of_mem_zipIdx hp).le]
  unfold firsts
  rw [List.zipIdx_append, List.filter_append, List.map_append, hkept, List.zipIdx_singleton,
    Nat.zero_add, List.filter_singleton, List.take_left]
  cases rules.any (·.equivalent r) with
  | true => exact List.append_nil _
  | false => rfl

theorem firsts_subset (rules : List (Rule α)) : firsts rules ⊆ rules := by
  intro r hr
  obtain ⟨p, hp, rfl⟩ := List.mem_map.mp hr
  exact List.fst_mem_of_mem_zipIdx (List.mem_of_mem_filter hp)

variable [Scalar.Ranked α]

-- Each rule is equivalent to one that no equivalent rule precedes.
theorem exists_first (hweights : ∀ r ∈ rules, Scalar.isNaN r.conclusion.weight = false) :
    ∀ r ∈ rules, ∃ s ∈ firsts rules, s.equivalent r = true := by
  induction rules using List.reverseRecOn with
  | nil => exact fun r hr => absurd hr List.not_mem_nil
  | append_singleton rules last ih =>
    obtain ⟨hearlier, hlast⟩ := List.forall_mem_append.mp hweights
    have hself := equivalent_self (hlast last (List.mem_singleton_self last))
    intro r hr
    rw [firsts_append_singleton]
    rcases List.mem_append.mp hr with hr | hr
    · obtain ⟨s, hs, hsame⟩ := ih hearlier r hr
      refine ⟨s, ?_, hsame⟩
      split
      · exact hs
      · exact List.mem_append_left _ hs
    · obtain rfl := List.mem_singleton.mp hr
      split
      · rename_i hany
        obtain ⟨s, hs, hsame⟩ := List.any_eq_true.mp hany
        obtain ⟨t, ht, hfirst⟩ := ih hearlier s hs
        exact ⟨t, ht, equivalent_trans hfirst hsame⟩
      · exact ⟨r, List.mem_append_right _ (List.mem_singleton_self r), hself⟩

/-- Keeping a rule unless an equivalent one is kept keeps the rules that no equivalent one
precedes. -/
theorem firstOfEach_eq_firsts
    (hweights : ∀ r ∈ rules, Scalar.isNaN r.conclusion.weight = false) :
    firstOfEach equivalent rules = firsts rules := by
  induction rules using List.reverseRecOn with
  | nil => rfl
  | append_singleton rules last ih =>
    obtain ⟨hearlier, -⟩ := List.forall_mem_append.mp hweights
    have hkept := ih hearlier
    -- the kept rules stand for all rules so far
    have hany : (firsts rules).any (·.equivalent last) = rules.any (·.equivalent last) := by
      rw [Bool.eq_iff_iff, List.any_eq_true, List.any_eq_true]
      constructor
      · rintro ⟨s, hs, hsame⟩
        exact ⟨s, firsts_subset rules hs, hsame⟩
      · rintro ⟨s, hs, hsame⟩
        obtain ⟨t, ht, hfirst⟩ := exists_first hearlier s hs
        exact ⟨t, ht, equivalent_trans hfirst hsame⟩
    unfold firstOfEach at hkept ⊢
    rw [List.foldl_append, hkept, List.foldl_cons, List.foldl_nil, firsts_append_singleton, hany]

end Rule

/-! ## Dictionaries of rules -/

namespace Hashing

variable {α κ : Type} [Scalar α] [DecidableEq κ]

/-- A dictionary whose keys are put in one after the other. A key that it finds stays in its
place. -/
def fromKeys (H : Hashing α κ) (rules : List (Rule α)) : List (Rule α) :=
  rules.foldl (fun kept r => if H.finds kept r then kept else kept ++ [r]) []

theorem fromKeys_eq_firstOfEach (H : Hashing α κ) {rules : List (Rule α)}
    (hweights : ∀ r ∈ rules, Scalar.isNaN r.conclusion.weight = false) :
    H.fromKeys rules = firstOfEach Rule.equivalent rules := by
  unfold fromKeys firstOfEach
  refine List.foldl_ext _ _ _ fun kept r hr => ?_
  rw [finds_eq_any (hweights r hr)]

end Hashing

/-! ## All rules or none -/

namespace Controller

variable {α κ : Type} [Scalar α] [DecidableEq κ] {c : Controller α} {rules : List (Rule α)}

/-- An invalid rule leaves everything as it was, and the first one is reported. -/
theorem setRules_of_invalid (h : ¬ ∀ r ∈ rules, c.Valid r) :
    ∃ before r after f, rules = before ++ r :: after ∧ (∀ s ∈ before, c.Valid s) ∧
      c.checkRule r = .error f ∧ replaceRules rules c = ⟨c, [], .error f⟩ := by
  cases hcheck : rules.forM c.checkRule with
  | ok u => exact absurd (fun r hr => checkRule_eq_ok.mp (forM_eq_ok.mp hcheck r hr)) h
  | error f =>
    obtain ⟨before, r, after, rfl, hbefore, hr⟩ := forM_eq_error.mp hcheck
    refine ⟨before, r, after, f, rfl, fun s hs => checkRule_eq_ok.mp (hbefore s hs), hr, ?_⟩
    rw [replaceRules_eq]
    refine Action.change_of_error ?_
    unfold setRules
    rw [hcheck]
    rfl

theorem leads_setRules : (∃ d, (replaceRules rules).Leads c d ()) ↔ ∀ r ∈ rules, c.Valid r := by
  simp only [replaceRules_eq, Action.leads_change, setRules_eq_ok, exists_and_left, exists_eq,
    and_true]

/-- Setting rules together succeeds just if all of them are valid.  Then it leaves what adding them
one by one to no rules leaves, which is what a dictionary with the rules as its keys holds: the
rules that no equivalent rule precedes, in their order.  Else everything stays as it was, and the
fault is that of the first rule that is invalid. -/
theorem setRules_eq_addRules [Scalar.Ranked α] (H : Hashing α κ) (c : Controller α)
    {rules : List (Rule α)}
    (hweights : ∀ r ∈ rules, Scalar.isNaN r.conclusion.weight = false) :
    ((∃ d, (replaceRules rules).Leads c d ()) ↔ ∀ r ∈ rules, c.Valid r) ∧
    ((∀ r ∈ rules, c.Valid r) → ∃ notices,
      replaceRules rules c = ⟨{ c with rules := H.fromKeys rules }, [], .ok ()⟩ ∧
      Action.forEach rules addRule c.clearRules =
        ⟨{ c with rules := H.fromKeys rules }, notices, .ok ()⟩ ∧
      H.fromKeys rules = Rule.firsts rules) ∧
    ((∃ r ∈ rules, ¬ c.Valid r) → ∃ before r after f, rules = before ++ r :: after ∧
      (∀ s ∈ before, c.Valid s) ∧ c.checkRule r = .error f ∧
      replaceRules rules c = ⟨c, [], .error f⟩) := by
  have hkeys := H.fromKeys_eq_firstOfEach hweights
  refine ⟨leads_setRules, fun hvalid => ?_, fun ⟨r, hr, hinvalid⟩ => ?_⟩
  · have hcleared : ∀ r ∈ rules, c.clearRules.Valid r :=
      fun r hr => (hvalid r hr).of_covers (c.covers_rules [])
    obtain ⟨notices, hadded⟩ := Fcl.forEach_addRule rules c.clearRules hcleared
    rw [hkeys, replaceRules_eq]
    exact ⟨notices, Action.change_of_ok (setRules_eq_ok.mpr ⟨hvalid, rfl⟩), hadded,
      Rule.firstOfEach_eq_firsts hweights⟩
  · exact setRules_of_invalid fun hvalid => hinvalid (hvalid r hr)

/-- Rules for a vent. The second says what the first says, and the last is the first again. -/
def ventRules : List (Rule Rat) :=
  [.ofCondition (.and (.is ⟨"temperature", 0, false⟩) (.is ⟨"humidity", 0, false⟩)) "flap" 0 1,
    .ofCondition (.and (.is ⟨"humidity", 0, false⟩) (.is ⟨"temperature", 0, false⟩)) "flap" 0 1,
    .ofCondition (.is ⟨"humidity", 0, true⟩) "flap" 0 (1 / 2),
    .ofCondition (.and (.is ⟨"temperature", 0, false⟩) (.is ⟨"humidity", 0, false⟩)) "flap" 0 1]

theorem setRules_eq_addRules_vent :
    (∀ r ∈ ventRules, Scalar.isNaN r.conclusion.weight = false) ∧
    (∀ r ∈ ventRules, vent.Valid r) ∧
    replaceRules ventRules vent =
      ⟨{ vent with rules := [ventRules[0], ventRules[2]] }, [], .ok ()⟩ ∧
    ∃ notices, Action.forEach ventRules addRule vent.clearRules =
      ⟨{ vent with rules := [ventRules[0], ventRules[2]] }, notices, .ok ()⟩ := by
  have hweights : ∀ r ∈ ventRules, Scalar.isNaN r.conclusion.weight = false := by decide +kernel
  have hvalid : ∀ r ∈ ventRules, vent.Valid r := by
    have hcheck : ∀ r ∈ ventRules, vent.checkRule r = .ok () := by decide +kernel
    exact fun r hr => checkRule_eq_ok.mp (hcheck r hr)
  obtain ⟨-, hset, -⟩ := setRules_eq_addRules sizeHashing vent hweights
  obtain ⟨notices, hchanged, hadded, hfirsts⟩ := hset hvalid
  have hkept : Rule.firsts ventRules = [ventRules[0], ventRules[2]] := by decide +kernel
  rw [hfirsts, hkept] at hchanged hadded
  exact ⟨hweights, hvalid, hchanged, notices, hadded⟩

end Controller

end FuzzyInference
