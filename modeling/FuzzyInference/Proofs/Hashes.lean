import Mathlib
import FuzzyInference.Proofs.Equivalence

/-!
# Exchanged operands and hashes

Conditions are equivalent when an exchange of operands at some of the joints makes one of them the
other.  A dictionary looks for a rule among the rules with the same hash.  It finds what a
comparison with every rule would find, because equivalent conditions have one hash, whichever hashes
of texts, numbers, tuples and sets the hash of a rule is made of.
-/

namespace FuzzyInference

namespace Condition

/-! ## Exchanged operands -/

/-- An operand of a joint. The position of a part of a condition is the list of the operands that
lead to it. -/
inductive Side where
  | left
  | right
  deriving Repr, DecidableEq

/-- The condition with the operands exchanged at the joints whose positions are chosen. -/
def exchange (chosen : List Side → Bool) : Condition → Condition
  | .is c => .is c
  | .and l r =>
    let l' := l.exchange fun position => chosen (.left :: position)
    let r' := r.exchange fun position => chosen (.right :: position)
    if chosen [] then .and r' l' else .and l' r'
  | .or l r =>
    let l' := l.exchange fun position => chosen (.left :: position)
    let r' := r.exchange fun position => chosen (.right :: position)
    if chosen [] then .or r' l' else .or l' r'

/-- The positions chosen in a joint, from whether it is chosen itself and from those chosen in its
operands. -/
def choose (here : Bool) (left right : List Side → Bool) : List Side → Bool
  | [] => here
  | .left :: position => left position
  | .right :: position => right position

variable {c d l r l' r' : Condition}

theorem equivalent_exchange (c : Condition) (chosen : List Side → Bool) :
    c.equivalent (c.exchange chosen) = true := by
  induction c generalizing chosen with
  | is leaf => exact equivalent_refl (is leaf)
  | and l r ihl ihr =>
    unfold exchange
    split
    · exact equivalent_and_iff.mpr ⟨_, _, rfl, .inr ⟨ihl _, ihr _⟩⟩
    · exact equivalent_and_iff.mpr ⟨_, _, rfl, .inl ⟨ihl _, ihr _⟩⟩
  | or l r ihl ihr =>
    unfold exchange
    split
    · exact equivalent_or_iff.mpr ⟨_, _, rfl, .inr ⟨ihl _, ihr _⟩⟩
    · exact equivalent_or_iff.mpr ⟨_, _, rfl, .inl ⟨ihl _, ihr _⟩⟩

theorem exists_exchange (h : c.equivalent d = true) : ∃ chosen, c.exchange chosen = d := by
  induction c generalizing d with
  | is leaf => exact ⟨fun _ => false, (equivalent_is_iff.mp h).symm⟩
  | and l r ihl ihr =>
    obtain ⟨l', r', rfl, ⟨hl, hr⟩ | ⟨hl, hr⟩⟩ := equivalent_and_iff.mp h
    · obtain ⟨left, rfl⟩ := ihl hl
      obtain ⟨right, rfl⟩ := ihr hr
      exact ⟨choose false left right, rfl⟩
    · obtain ⟨left, rfl⟩ := ihl hl
      obtain ⟨right, rfl⟩ := ihr hr
      exact ⟨choose true left right, rfl⟩
  | or l r ihl ihr =>
    obtain ⟨l', r', rfl, ⟨hl, hr⟩ | ⟨hl, hr⟩⟩ := equivalent_or_iff.mp h
    · obtain ⟨left, rfl⟩ := ihl hl
      obtain ⟨right, rfl⟩ := ihr hr
      exact ⟨choose false left right, rfl⟩
    · obtain ⟨left, rfl⟩ := ihl hl
      obtain ⟨right, rfl⟩ := ihr hr
      exact ⟨choose true left right, rfl⟩

theorem equivalent_iff_exchange : c.equivalent d = true ↔ ∃ chosen, c.exchange chosen = d := by
  constructor
  · exact exists_exchange
  · rintro ⟨chosen, rfl⟩
    exact equivalent_exchange c chosen

theorem equivalence : Equivalence fun c d : Condition => c.equivalent d = true where
  refl := equivalent_refl
  symm := equivalent_symm
  trans := equivalent_trans

/-! ## Digests -/

theorem equivalent_comm : c.equivalent d = d.equivalent c :=
  Bool.eq_iff_iff.mpr ⟨equivalent_symm, equivalent_symm⟩

theorem equivalent_congr (hl : l.equivalent l' = true) (hr : r.equivalent r' = true) :
    l.equivalent r = l'.equivalent r' := by
  apply Bool.eq_iff_iff.mpr
  constructor
  · intro h
    exact equivalent_trans (equivalent_symm hl) (equivalent_trans h hr)
  · intro h
    exact equivalent_trans hl (equivalent_trans h (equivalent_symm hr))

/-- The value of a joint, from the values of its operands. -/
def joined {κ : Type} (single : κ → κ) (pair : κ → κ → κ) (merged : Bool) (a b : κ) : κ :=
  if merged then single a else pair a b

-- Crossed operands give one value also when they count once: then they are all equivalent.
theorem joined_of_equivalent {κ : Type} {single : κ → κ} {pair : κ → κ → κ}
    (hpair : ∀ a b, pair a b = pair b a) {value : Condition → κ}
    (hl : ∀ {d}, l.equivalent d = true → value l = value d)
    (hr : ∀ {d}, r.equivalent d = true → value r = value d)
    (h : l.equivalent l' = true ∧ r.equivalent r' = true ∨
      l.equivalent r' = true ∧ r.equivalent l' = true) :
    joined single pair (l.equivalent r) (value l) (value r) =
      joined single pair (l'.equivalent r') (value l') (value r') := by
  rcases h with ⟨hfirst, hsecond⟩ | ⟨hfirst, hsecond⟩
  · rw [equivalent_congr hfirst hsecond, hl hfirst, hr hsecond]
  · have hmerged : l.equivalent r = l'.equivalent r' := by
      rw [equivalent_congr hfirst hsecond, equivalent_comm]
    unfold joined
    rw [← hmerged]
    split
    · rename_i hsame
      rw [hl (equivalent_trans hsame hsecond)]
    · rw [hl hfirst, hr hsecond, hpair]

theorem digest_of_equivalent {κ : Type} {leaf : Comparison → κ} {single : Bool → κ → κ}
    {pair : Bool → κ → κ → κ} (hpair : ∀ kind a b, pair kind a b = pair kind b a)
    (h : c.equivalent d = true) : c.digest leaf single pair = d.digest leaf single pair := by
  induction c generalizing d with
  | is leaf => rw [equivalent_is_iff.mp h]
  | and l r ihl ihr =>
    obtain ⟨l', r', rfl, hoperands⟩ := equivalent_and_iff.mp h
    exact joined_of_equivalent (hpair true) ihl ihr hoperands
  | or l r ihl ihr =>
    obtain ⟨l', r', rfl, hoperands⟩ := equivalent_or_iff.mp h
    exact joined_of_equivalent (hpair false) ihl ihr hoperands

theorem hashCode_of_equivalent (h : c.equivalent d = true) : c.hashCode = d.hashCode := by
  apply digest_of_equivalent _ h
  intro kind a b
  rw [UInt64.add_comm a b, UInt64.mul_comm a b]

end Condition

/-! ## Hashes of rules -/

/-- What a dictionary makes hashes of keys with, and which keys it takes for one object. Equal
numbers have one hash, the hash of a set does not look at the order of its elements, and one object
has one content. -/
structure Hashing (α κ : Type) [BEq α] where
  ofText : String → κ
  ofInt : Int → κ
  ofFlag : Bool → κ
  ofNumber : α → κ
  ofTuple : List κ → κ
  ofSet : Multiset κ → κ
  identical : Rule α → Rule α → Bool
  ofNumber_congr : ∀ {a b : α}, (a == b) = true → ofNumber a = ofNumber b
  eq_of_identical : ∀ {r s : Rule α}, identical r s = true → r = s

namespace Hashing

variable {α κ : Type} [Scalar α] [DecidableEq κ]

def leaf (H : Hashing α κ) (c : Comparison) : κ :=
  H.ofTuple [H.ofText c.name, H.ofInt c.term, H.ofFlag c.negated]

/-- The word that tells conjunctions and disjunctions apart in a hash. -/
def kindText (conjunction : Bool) : String := if conjunction then "And" else "Or"

/-- The hash of a joint from the hashes of the elements of the set of its operands. -/
def joint (H : Hashing α κ) (conjunction : Bool) (elements : Multiset κ) : κ :=
  H.ofTuple [H.ofText (kindText conjunction), H.ofSet elements]

/-- The hashes of the elements of the set of two operands. The set has one element when it finds the
first operand in the place of the second, which it looks for under the hash of the second. -/
def operands (l r : Condition) (a b : κ) : Multiset κ :=
  if a = b ∧ l.equivalent r = true then {a} else {a, b}

def condition (H : Hashing α κ) : Condition → κ
  | .is c => H.leaf c
  | .and l r => H.joint true (operands l r (H.condition l) (H.condition r))
  | .or l r => H.joint false (operands l r (H.condition l) (H.condition r))

def conclusion (H : Hashing α κ) (c : Conclusion α) : κ :=
  H.ofTuple [H.ofText c.name, H.ofInt c.term, H.ofNumber c.weight]

def rule (H : Hashing α κ) (r : Rule α) : κ :=
  H.ofTuple [H.condition r.condition, H.conclusion r.conclusion]

/-- Whether a dictionary with the rules as its keys has a rule: among the keys with its hash there
is one that is the same object or equivalent. -/
def finds (H : Hashing α κ) (rules : List (Rule α)) (r : Rule α) : Bool :=
  rules.any fun s => decide (H.rule s = H.rule r) && (H.identical s r || s.equivalent r)

variable {H : Hashing α κ} {c d l r : Condition}

theorem joint_operands (hhash : l.equivalent r = true → H.condition l = H.condition r)
    (conjunction : Bool) :
    H.joint conjunction (operands l r (H.condition l) (H.condition r)) =
      if l.equivalent r = true then H.joint conjunction {H.condition l}
      else H.joint conjunction {H.condition l, H.condition r} := by
  have hmerged : (H.condition l = H.condition r ∧ l.equivalent r = true) ↔ l.equivalent r = true :=
    and_iff_right_of_imp hhash
  unfold operands
  rw [apply_ite (H.joint conjunction)]
  exact if_congr hmerged rfl rfl

-- Inside the induction the merging of operands is settled already, because the digest of equivalent
-- operands is one.
theorem condition_eq_digest (H : Hashing α κ) (c : Condition) :
    H.condition c = c.digest H.leaf (fun kind a => H.joint kind {a})
      (fun kind a b => H.joint kind {a, b}) := by
  have hpair (kind : Bool) (a b : κ) : H.joint kind {a, b} = H.joint kind {b, a} := by
    rw [Multiset.pair_comm]
  induction c with
  | is leaf => rfl
  | and l r ihl ihr =>
    have hhash (h : l.equivalent r = true) : H.condition l = H.condition r := by
      rw [ihl, ihr]
      exact Condition.digest_of_equivalent hpair h
    unfold condition Condition.digest
    rw [joint_operands hhash, ihl, ihr]
  | or l r ihl ihr =>
    have hhash (h : l.equivalent r = true) : H.condition l = H.condition r := by
      rw [ihl, ihr]
      exact Condition.digest_of_equivalent hpair h
    unfold condition Condition.digest
    rw [joint_operands hhash, ihl, ihr]

theorem condition_of_equivalent (h : c.equivalent d = true) : H.condition c = H.condition d := by
  rw [condition_eq_digest, condition_eq_digest]
  apply Condition.digest_of_equivalent _ h
  intro kind a b
  rw [Multiset.pair_comm]

end Hashing

namespace Rule

variable {α κ : Type} [Scalar α] [DecidableEq κ] {r s : Rule α}

theorem equivalent_iff_fields : s.equivalent r = true ↔
    s.condition.equivalent r.condition = true ∧ s.conclusion.name = r.conclusion.name ∧
      s.conclusion.term = r.conclusion.term ∧
      (s.conclusion.weight == r.conclusion.weight) = true := by
  simp only [equivalent, Bool.and_eq_true, beq_iff_eq, and_assoc]

theorem hash_of_equivalent (H : Hashing α κ) (h : s.equivalent r = true) :
    H.rule s = H.rule r := by
  obtain ⟨hcondition, hname, hterm, hweight⟩ := equivalent_iff_fields.mp h
  have hconclusion : H.conclusion s.conclusion = H.conclusion r.conclusion := by
    unfold Hashing.conclusion
    rw [hname, hterm, H.ofNumber_congr hweight]
  unfold Hashing.rule
  rw [Hashing.condition_of_equivalent hcondition, hconclusion]

theorem equivalent_self (h : Scalar.isNaN r.conclusion.weight = false) :
    r.equivalent r = true := by
  refine equivalent_iff_fields.mpr ⟨r.condition.equivalent_refl, rfl, rfl, ?_⟩
  simpa only [Scalar.isNaN, Bool.not_eq_false'] using h

end Rule

namespace Hashing

variable {α κ : Type} [Scalar α] [DecidableEq κ] {H : Hashing α κ}

theorem finds_eq_any {rules : List (Rule α)} {r : Rule α}
    (h : Scalar.isNaN r.conclusion.weight = false) :
    H.finds rules r = rules.any (·.equivalent r) := by
  have hsame (s : Rule α) : (H.identical s r || s.equivalent r) = s.equivalent r := by
    cases hid : H.identical s r with
    | false => rfl
    | true =>
      rw [H.eq_of_identical hid, Rule.equivalent_self h]
      rfl
  have hhash (s : Rule α) :
      (decide (H.rule s = H.rule r) && s.equivalent r) = s.equivalent r := by
    cases heq : s.equivalent r with
    | false => exact Bool.and_false _
    | true => rw [decide_eq_true (Rule.hash_of_equivalent H heq), Bool.and_true]
  unfold finds
  simp only [hsame, hhash]

end Hashing

namespace Controller

variable {α κ : Type} [Scalar α] [DecidableEq κ]

theorem addRule_of_valid {c : Controller α} {r : Rule α} (h : c.Valid r) :
    c.addRule r = if c.rules.any (·.equivalent r) then ⟨c, [.duplicateRule r.text], .ok ()⟩
      else ⟨{ c with rules := c.rules ++ [r] }, [], .ok ()⟩ := by
  unfold addRule
  rw [checkRule_eq_ok.mpr h]

/-- Equality of conditions up to exchanged operands is an equivalence for which hashes may be used:
a dictionary of rules with any hashes ignores just the valid rules that say what a stored one
says. -/
theorem addRule_hashing (H : Hashing α κ) :
    Equivalence (fun c d : Condition => c.equivalent d = true) ∧
    (∀ c d : Condition, c.equivalent d = true ↔ ∃ chosen, c.exchange chosen = d) ∧
    (∀ c d : Condition, c.equivalent d = true → H.condition c = H.condition d) ∧
    ∀ (c : Controller α) (r : Rule α), c.Valid r → Scalar.isNaN r.conclusion.weight = false →
      (c.addRule r = if H.finds c.rules r then ⟨c, [.duplicateRule r.text], .ok ()⟩
        else ⟨{ c with rules := c.rules ++ [r] }, [], .ok ()⟩) ∧
      (H.finds c.rules r = true ↔ ∃ s ∈ c.rules, s.condition.equivalent r.condition = true ∧
        s.conclusion.name = r.conclusion.name ∧ s.conclusion.term = r.conclusion.term ∧
        (s.conclusion.weight == r.conclusion.weight) = true) := by
  refine ⟨Condition.equivalence, fun _ _ => Condition.equivalent_iff_exchange,
    fun _ _ => Hashing.condition_of_equivalent, ?_⟩
  intro c r hvalid hweight
  rw [Hashing.finds_eq_any hweight]
  refine ⟨addRule_of_valid hvalid, ?_⟩
  rw [List.any_eq_true]
  simp only [Rule.equivalent_iff_fields]

/-- A vent that opens when it is warm and damp. -/
def vent : Controller Rat :=
  { ofConfig .standard "" with
    inputs := [⟨"temperature", [⟨"warm", [⟨20, 0⟩, ⟨30, 1⟩], 0, [0]⟩]⟩,
      ⟨"humidity", [⟨"high", [⟨50, 0⟩, ⟨100, 1⟩], 0, [0]⟩]⟩]
    outputs := [⟨⟨"flap", [⟨"open", [⟨0, 0⟩, ⟨1, 1⟩], 0, [0]⟩]⟩, 0, 0, 4, .gravity, none⟩]
    rules := [.ofCondition (.and (.is ⟨"temperature", 0, false⟩) (.is ⟨"humidity", 0, false⟩))
      "flap" 0 1] }

/-- Hashes by sizes, under which many keys collide. -/
def sizeHashing : Hashing Rat Nat where
  ofText := String.length
  ofInt := Int.natAbs
  ofFlag := Bool.toNat
  ofNumber q := q.num.natAbs
  ofTuple := List.sum
  ofSet elements := elements.foldr (· + ·) 0
  identical _ _ := false
  ofNumber_congr h := congrArg (fun q : Rat => q.num.natAbs) (beq_iff_eq.mp h)
  eq_of_identical h := nomatch h

theorem addRule_hashing_vent :
    let swapped : Rule Rat := .ofCondition
      (.and (.is ⟨"humidity", 0, false⟩) (.is ⟨"temperature", 0, false⟩)) "flap" 0 1
    vent.Valid swapped ∧ Scalar.isNaN swapped.conclusion.weight = false ∧
      sizeHashing.finds vent.rules swapped = true ∧
      vent.addRule swapped = ⟨vent, [.duplicateRule swapped.text], .ok ()⟩ := by
  intro swapped
  have hvalid : vent.Valid swapped := checkRule_eq_ok.mp (by decide +kernel)
  have hweight : Scalar.isNaN swapped.conclusion.weight = false := by decide +kernel
  obtain ⟨-, -, -, hadd⟩ := addRule_hashing sizeHashing
  obtain ⟨hadded, hfinds⟩ := hadd vent swapped hvalid hweight
  have hfound : sizeHashing.finds vent.rules swapped = true :=
    hfinds.mpr ⟨_, List.mem_singleton_self _, by decide +kernel⟩
  rw [if_pos hfound] at hadded
  exact ⟨hvalid, hweight, hfound, hadded⟩

end Controller

end FuzzyInference
