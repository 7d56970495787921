import FuzzyInference.Proofs.Degrees
import FuzzyInference.Proofs.Duality

/-!
# Strengths that grow with the degrees

The strength of a condition does not fall when the degrees of its plain comparisons rise and those
of its negated ones fall, nor when conjunctions in it are made disjunctions.  Between degrees it is
a degree itself, and only there the product and the algebraic sum are monotone.
-/

namespace FuzzyInference

/-! ## Joints of degrees -/

theorem complement_le_complement {a b : Rat} (h : a ≤ b) : complement b ≤ complement a :=
  sub_le_sub_left h 1

namespace NormPair

variable {a a' b b' : Rat}

theorem conjunction_mono (pair : NormPair) (hb : IsDegree b) (ha' : IsDegree a') (haa' : a ≤ a')
    (hbb' : b ≤ b') : pair.conjunction a b ≤ pair.conjunction a' b' := by
  cases pair with
  | minMax =>
    show Scalar.minimum a b ≤ Scalar.minimum a' b'
    rw [Scalar.minimum_rat, Scalar.minimum_rat]
    exact min_le_min haa' hbb'
  | probability => exact mul_le_mul haa' hbb' hb.1 ha'.1
  | lukasiewicz =>
    show Scalar.maximum 0 (a + b - 1) ≤ Scalar.maximum 0 (a' + b' - 1)
    rw [Scalar.maximum_rat, Scalar.maximum_rat]
    exact max_le_max le_rfl (sub_le_sub_right (add_le_add haa' hbb') 1)

theorem conjunction_le_left (pair : NormPair) (ha : IsDegree a) (hb : IsDegree b) :
    pair.conjunction a b ≤ a := by
  cases pair with
  | minMax =>
    show Scalar.minimum a b ≤ a
    rw [Scalar.minimum_rat]
    exact min_le_left a b
  | probability => exact mul_le_of_le_one_right ha.1 hb.2
  | lukasiewicz =>
    show Scalar.maximum 0 (a + b - 1) ≤ a
    rw [Scalar.maximum_rat]
    exact max_le ha.1 (by linarith [hb.2])

-- A disjunction is the complement of the conjunction of the complements.
theorem disjunction_mono (pair : NormPair) (ha : IsDegree a) (hb' : IsDegree b') (haa' : a ≤ a')
    (hbb' : b ≤ b') : pair.disjunction a b ≤ pair.disjunction a' b' := by
  have hdual := pair.conjunction_mono hb'.complement ha.complement (complement_le_complement haa')
    (complement_le_complement hbb')
  rw [conjunction_complement, conjunction_complement] at hdual
  exact (sub_le_sub_iff_left 1).mp hdual

theorem le_disjunction_left (pair : NormPair) (ha : IsDegree a) (hb : IsDegree b) :
    a ≤ pair.disjunction a b := by
  have hdual := pair.conjunction_le_left ha.complement hb.complement
  rw [conjunction_complement] at hdual
  exact (sub_le_sub_iff_left 1).mp hdual

theorem conjunction_le_disjunction (pair : NormPair) (hb : IsDegree b) (ha' : IsDegree a')
    (hb' : IsDegree b') (haa' : a ≤ a') (hbb' : b ≤ b') :
    pair.conjunction a b ≤ pair.disjunction a' b' :=
  calc pair.conjunction a b ≤ pair.conjunction a' b' := pair.conjunction_mono hb ha' haa' hbb'
    _ ≤ a' := pair.conjunction_le_left ha' hb'
    _ ≤ pair.disjunction a' b' := pair.le_disjunction_left ha' hb'

end NormPair

/-! ## Outcomes that do not fall -/

/-- Both outcomes are degrees, and the second one is not less. -/
def Rises (x y : Except Fault Rat) : Prop :=
  ∃ a b, x = .ok a ∧ y = .ok b ∧ IsDegree a ∧ IsDegree b ∧ a ≤ b

namespace Rises

variable {x y : Except Fault Rat}

theorem left (h : Rises x y) : Rises x x := by
  obtain ⟨a, b, hx, -, ha, -, -⟩ := h
  exact ⟨a, a, hx, hx, ha, ha, le_rfl⟩

theorem right (h : Rises x y) : Rises y y := by
  obtain ⟨a, b, -, hy, -, hb, -⟩ := h
  exact ⟨b, b, hy, hy, hb, hb, le_rfl⟩

theorem exists_of_ok {a : Rat} (h : Rises x y) (hx : x = .ok a) : ∃ b, y = .ok b ∧ a ≤ b := by
  obtain ⟨a', b, hx', hy, -, -, hab⟩ := h
  obtain rfl := Except.ok.inj (hx'.symm.trans hx)
  exact ⟨b, hy, hab⟩

end Rises

/-- One joint of degrees leads to degrees, and the other to degrees that are not less. -/
structure Joins (f g : Rat → Rat → Rat) : Prop where
  left : ∀ {a b}, IsDegree a → IsDegree b → IsDegree (f a b)
  right : ∀ {a b}, IsDegree a → IsDegree b → IsDegree (g a b)
  le : ∀ {a b a' b'}, IsDegree a → IsDegree b → IsDegree a' → IsDegree b' → a ≤ a' → b ≤ b' →
    f a b ≤ g a' b'

theorem NormPair.joins_conjunction (pair : NormPair) : Joins pair.conjunction pair.conjunction where
  left := pair.isDegree_conjunction
  right := pair.isDegree_conjunction
  le _ hb ha' _ := pair.conjunction_mono hb ha'

theorem NormPair.joins_disjunction (pair : NormPair) : Joins pair.disjunction pair.disjunction where
  left := pair.isDegree_disjunction
  right := pair.isDegree_disjunction
  le ha _ _ hb' := pair.disjunction_mono ha hb'

theorem NormPair.joins_loosened (pair : NormPair) : Joins pair.conjunction pair.disjunction where
  left := pair.isDegree_conjunction
  right := pair.isDegree_disjunction
  le _ hb := pair.conjunction_le_disjunction hb

theorem Rises.joint {f g : Rat → Rat → Rat} (hjoins : Joins f g) {x x' y y' : Except Fault Rat}
    (hx : Rises x x') (hy : Rises y y') :
    Rises (do let a ← x; let b ← y; return f a b) (do let a ← x'; let b ← y'; return g a b) := by
  obtain ⟨a, a', rfl, rfl, ha, ha', haa'⟩ := hx
  obtain ⟨b, b', rfl, rfl, hb, hb', hbb'⟩ := hy
  exact ⟨f a b, g a' b', rfl, rfl, hjoins.left ha hb, hjoins.right ha' hb',
    hjoins.le ha hb ha' hb' haa' hbb'⟩

namespace Condition

/-! ## Loosened trees -/

/-- The second tree is the first one with some conjunctions made disjunctions. -/
inductive Loosens : Condition → Condition → Prop
  | is (leaf : Comparison) : Loosens (.is leaf) (.is leaf)
  | and {l r l' r' : Condition} : Loosens l l' → Loosens r r' → Loosens (.and l r) (.and l' r')
  | or {l r l' r' : Condition} : Loosens l l' → Loosens r r' → Loosens (.or l r) (.or l' r')
  | loosen {l r l' r' : Condition} : Loosens l l' → Loosens r r' → Loosens (.and l r) (.or l' r')

theorem Loosens.refl (c : Condition) : c.Loosens c := by
  induction c with
  | is leaf => exact .is leaf
  | and l r ihl ihr => exact .and ihl ihr
  | or l r ihl ihr => exact .or ihl ihr

variable {inputs inputs' : List (Variable Rat)}

-- The range comes along with the order, because products grow between degrees only.
theorem Loosens.rises {c d : Condition} (h : c.Loosens d) (pair : NormPair)
    (hleaves : ∀ leaf ∈ c.leaves, Rises (degree inputs leaf) (degree inputs' leaf)) :
    Rises (c.strength inputs pair) (d.strength inputs' pair) := by
  induction h with
  | is leaf => exact hleaves leaf (List.mem_singleton_self leaf)
  | and _ _ ihl ihr =>
    obtain ⟨hl, hr⟩ := List.forall_mem_append.mp hleaves
    exact (ihl hl).joint pair.joins_conjunction (ihr hr)
  | or _ _ ihl ihr =>
    obtain ⟨hl, hr⟩ := List.forall_mem_append.mp hleaves
    exact (ihl hl).joint pair.joins_disjunction (ihr hr)
  | loosen _ _ ihl ihr =>
    obtain ⟨hl, hr⟩ := List.forall_mem_append.mp hleaves
    exact (ihl hl).joint pair.joins_loosened (ihr hr)

/-! ## Degrees of the terms -/

/-- The inputs have given a degree to the term that a comparison names. -/
def Reads (inputs : List (Variable Rat)) (leaf : Comparison) (dom : Rat) : Prop :=
  ∃ v t, inputs.find? (·.name == leaf.name) = some v ∧ v.term leaf.term = .ok t ∧ t.dom = dom

/-- Both inputs have given the term of a comparison a degree, which does not fall from the first
to the second, or does not rise if the comparison is negated. -/
def Favours (inputs inputs' : List (Variable Rat)) (leaf : Comparison) : Prop :=
  ∃ a b, Reads inputs leaf a ∧ Reads inputs' leaf b ∧ IsDegree a ∧ IsDegree b ∧
    if leaf.negated then b ≤ a else a ≤ b

theorem Reads.degree_eq {leaf : Comparison} {a : Rat} (h : Reads inputs leaf a) :
    degree inputs leaf = .ok (if leaf.negated then complement a else a) := by
  obtain ⟨v, t, hv, ht, rfl⟩ := h
  unfold degree
  rw [hv]
  exact map_eq_ok.mpr ⟨t, ht, rfl⟩

theorem Favours.rises {leaf : Comparison} (h : Favours inputs inputs' leaf) :
    Rises (degree inputs leaf) (degree inputs' leaf) := by
  obtain ⟨a, b, hread, hread', ha, hb, hab⟩ := h
  rw [hread.degree_eq, hread'.degree_eq]
  cases hnegated : leaf.negated with
  | false =>
    rw [hnegated] at hab
    exact ⟨a, b, rfl, rfl, ha, hb, hab⟩
  | true =>
    rw [hnegated] at hab
    exact ⟨_, _, rfl, rfl, ha.complement, hb.complement, complement_le_complement hab⟩

/-- Strengths are degrees.  They do not fall when the degrees of plain comparisons rise and those of
negated ones fall, nor when conjunctions are made disjunctions. -/
theorem strength_mono {c : Condition} (pair : NormPair)
    (h : ∀ leaf ∈ c.leaves, Favours inputs inputs' leaf) :
    ∃ s s', c.strength inputs pair = .ok s ∧ c.strength inputs' pair = .ok s' ∧
      IsDegree s ∧ IsDegree s' ∧ s ≤ s' ∧
      ∀ d, c.Loosens d → ∃ u u', d.strength inputs pair = .ok u ∧ d.strength inputs' pair = .ok u' ∧
        s ≤ u ∧ s' ≤ u' := by
  have hleaves : ∀ leaf ∈ c.leaves, Rises (degree inputs leaf) (degree inputs' leaf) :=
    fun leaf hleaf => (h leaf hleaf).rises
  obtain ⟨s, s', hs, hs', hdegree, hdegree', hle⟩ := (Loosens.refl c).rises pair hleaves
  refine ⟨s, s', hs, hs', hdegree, hdegree', hle, fun d hd => ?_⟩
  -- the degrees stay, and only the tree is loosened
  have hfirst := hd.rises pair fun leaf hleaf => (hleaves leaf hleaf).left
  have hsecond := hd.rises pair fun leaf hleaf => (hleaves leaf hleaf).right
  obtain ⟨u, hu, hsu⟩ := hfirst.exists_of_ok hs
  obtain ⟨u', hu', hsu'⟩ := hsecond.exists_of_ok hs'
  exact ⟨u, u', hu, hu', hsu, hsu'⟩

/-- A room that is warm and damp to given degrees. -/
def climate (warm damp : Rat) : List (Variable Rat) :=
  [⟨"air", [⟨"warm", [], warm, []⟩, ⟨"damp", [], damp, []⟩]⟩]

/-- The room is warm, and it is warm or not damp. -/
def pleasant : Condition :=
  .and (.is ⟨"air", 0, false⟩) (.or (.is ⟨"air", 0, false⟩) (.is ⟨"air", 1, true⟩))

theorem strength_mono_climate :
    pleasant.strength (climate (1 / 2) (3 / 4)) .probability = .ok (5 / 16) ∧
    ∃ s', pleasant.strength (climate (3 / 4) (1 / 4)) .probability = .ok s' ∧ 5 / 16 ≤ s' ∧
      ∃ u', (Condition.or (.is ⟨"air", 0, false⟩)
        (.or (.is ⟨"air", 0, false⟩) (.is ⟨"air", 1, true⟩))).strength
          (climate (3 / 4) (1 / 4)) .probability = .ok u' ∧ s' ≤ u' := by
  have hwarm : Favours (climate (1 / 2) (3 / 4)) (climate (3 / 4) (1 / 4)) ⟨"air", 0, false⟩ :=
    ⟨1 / 2, 3 / 4, ⟨_, _, rfl, rfl, rfl⟩, ⟨_, _, rfl, rfl, rfl⟩, by decide +kernel,
      by decide +kernel, by decide +kernel⟩
  have hdamp : Favours (climate (1 / 2) (3 / 4)) (climate (3 / 4) (1 / 4)) ⟨"air", 1, true⟩ :=
    ⟨3 / 4, 1 / 4, ⟨_, _, rfl, rfl, rfl⟩, ⟨_, _, rfl, rfl, rfl⟩, by decide +kernel,
      by decide +kernel, by decide +kernel⟩
  have hleaves : ∀ leaf ∈ pleasant.leaves,
      Favours (climate (1 / 2) (3 / 4)) (climate (3 / 4) (1 / 4)) leaf :=
    List.forall_mem_cons.mpr ⟨hwarm,
      List.forall_mem_cons.mpr ⟨hwarm, List.forall_mem_singleton.mpr hdamp⟩⟩
  have hbefore : pleasant.strength (climate (1 / 2) (3 / 4)) .probability = .ok (5 / 16) := by
    decide +kernel
  obtain ⟨s, s', hs, hs', -, -, hle, hloosened⟩ := strength_mono .probability hleaves
  obtain rfl := Except.ok.inj (hbefore.symm.trans hs)
  obtain ⟨u, u', -, hu', -, hsu'⟩ :=
    hloosened _ (.loosen (.is _) (.or (.is _) (.is _)))
  exact ⟨hbefore, s', hs', hle, u', hu', hsu'⟩

end Condition

end FuzzyInference
