import FuzzyInference.Proofs.Operation
import FuzzyInference.Proofs.PointGroups

/-!
# Drawing a shape

A shape comes out the same whether its points are given at once, replace older ones or are added one
after the other.  No operation but moving a point brings the points of a term out of order.
-/

namespace FuzzyInference

open Point (Numbered Sorted StablySorted sort)

variable {α : Type} [Scalar α]

/-! ## Only one stable order -/

section Unique

variable {p q : Point α} {ps qs : List (Point α)}

theorem Point.Numbered.of_perm (h : Numbered qs) (hperm : ps.Perm qs) : Numbered ps :=
  fun p hp => h p (hperm.mem_iff.mp hp)

theorem Scalar.beq_of_number {a : α} (h : Scalar.isNaN a = false) : (a == a) = true := by
  simpa [Scalar.isNaN] using h

-- Every point is one of those above its abscissa.
theorem Point.mem_of_filters (h : ∀ x, ps.filter (·.x == x) = qs.filter (·.x == x))
    (hnumbers : Numbered ps) (hp : p ∈ ps) : p ∈ qs := by
  have hfilter : p ∈ ps.filter (·.x == p.x) :=
    List.mem_filter.mpr ⟨hp, Scalar.beq_of_number (hnumbers p hp)⟩
  rw [h] at hfilter
  exact (List.mem_filter.mp hfilter).1

variable [Scalar.Ranked α]

theorem Scalar.beq_of_le_of_le {a b : α} (hab : a ≤ b) (hba : b ≤ a) : (a == b) = true := by
  obtain ⟨r, s, hr, hs, hrs⟩ := Scalar.Ranked.le_iff.mp hab
  obtain ⟨s', r', hs', hr', hsr⟩ := Scalar.Ranked.le_iff.mp hba
  obtain rfl := Option.some.inj (hr.symm.trans hr')
  obtain rfl := Option.some.inj (hs.symm.trans hs')
  exact Scalar.Ranked.beq_iff.mpr ⟨r, hr, hs.trans (congrArg some (hsr.antisymm hrs))⟩

namespace Point

theorem head_le (h : (p :: ps).Pairwise fun p q => p.x ≤ q.x) (hnumbers : Numbered (p :: ps))
    (hq : q ∈ p :: ps) : p.x ≤ q.x := by
  rcases List.mem_cons.mp hq with rfl | hq
  · have hnumber := hnumbers q hq
    exact Scalar.le_of_not_lt hnumber hnumber (Scalar.not_lt_self q.x)
  · exact List.rel_of_pairwise_cons h hq

/-- Points from left to right are determined by the order of those above each abscissa. -/
theorem eq_of_filters (hp : ps.Pairwise fun p q => p.x ≤ q.x)
    (hq : qs.Pairwise fun p q => p.x ≤ q.x)
    (hpnumbers : Numbered ps) (hqnumbers : Numbered qs)
    (h : ∀ x, ps.filter (·.x == x) = qs.filter (·.x == x)) : ps = qs := by
  induction ps generalizing qs with
  | nil =>
    refine (List.eq_nil_iff_forall_not_mem.mpr fun q hmem => ?_).symm
    exact absurd (mem_of_filters (fun x => (h x).symm) hqnumbers hmem) List.not_mem_nil
  | cons p ps ih =>
    have hmem : p ∈ qs := mem_of_filters h hpnumbers List.mem_cons_self
    cases qs with
    | nil => exact absurd hmem List.not_mem_nil
    | cons q qs =>
      -- the first points stand above one abscissa, so they are the first ones above it
      have hmem' : q ∈ p :: ps :=
        mem_of_filters (fun x => (h x).symm) hqnumbers List.mem_cons_self
      have heq : (p.x == q.x) = true :=
        Scalar.beq_of_le_of_le (head_le hp hpnumbers hmem') (head_le hq hqnumbers hmem)
      have hself : (q.x == q.x) = true := Scalar.beq_of_number (hqnumbers q List.mem_cons_self)
      have hfirst := h q.x
      rw [List.filter_cons_of_pos (p := fun r : Point α => r.x == q.x) heq,
        List.filter_cons_of_pos (p := fun r : Point α => r.x == q.x) hself] at hfirst
      obtain ⟨rfl, -⟩ := List.cons.inj hfirst
      have hrest : ∀ x, ps.filter (·.x == x) = qs.filter (·.x == x) := by
        intro x
        have hx := h x
        rw [List.filter_cons, List.filter_cons] at hx
        split at hx
        · exact (List.cons.inj hx).2
        · exact hx
      rw [ih hp.of_cons hq.of_cons (fun r hr => hpnumbers r (List.mem_cons_of_mem _ hr))
        (fun r hr => hqnumbers r (List.mem_cons_of_mem _ hr)) hrest]

/-- Stable sorting leaves no choice. -/
theorem StablySorted.eq_sort (h : StablySorted qs ps) (hnumbers : Numbered qs) : ps = sort qs :=
  eq_of_filters h.ascending (stablySorted_sort hnumbers).ascending (hnumbers.of_perm h.perm)
    (hnumbers.of_perm (sort_perm qs)) fun x => (h.stable x).trans (filter_sort qs x).symm

end Point

end Unique

variable [Scalar.Ranked α]

/-! ## Point by point -/

namespace Term

variable {t : Term α} {given points : List (Point α)} {p : Point α}

theorem points_addPoint (h : t.points = sort given) :
    (t.addPoint p).points = sort (given ++ [p]) := by
  show sort (t.points ++ [p]) = sort (given ++ [p])
  rw [Point.sort_append_singleton, Point.sort_append_singleton, h,
    (Point.sorted_sort given).sort_eq]

/-- Points that are added one after the other to sorted ones are sorted together with them. -/
theorem foldl_addPoint (h : t.points = sort given) :
    points.foldl addPoint t = { t with points := sort (given ++ points) } := by
  induction points generalizing t given with
  | nil => rw [List.foldl_nil, List.append_nil, ← h]
  | cons p points ih =>
    rw [List.foldl_cons, ih (points_addPoint h), List.append_assoc, List.singleton_append]
    rfl

theorem ofPoints_eq_foldl (name : String) (points : List (Point α)) :
    ofPoints name points = points.foldl addPoint (ofPoints name []) := by
  have hempty : (ofPoints name ([] : List (Point α))).points = sort [] := rfl
  exact (foldl_addPoint hempty).symm

end Term

/-- The reader of texts draws a term as adding its points one after the other does. -/
theorem Fcl.readTerm_point_by_point {statement name text : List Char} {t : Term α}
    (hparts : Fcl.termParts? statement = some (name, text)) : Fcl.readTerm statement = .ok t ↔
      ∃ points, points ≠ [] ∧ Fcl.PointGroups Fcl.trimmedNumber? text points ∧
        t = points.foldl Term.addPoint (.ofPoints (String.ofList name) []) := by
  rw [Fcl.readTerm_eq_ok hparts]
  simp only [← Term.ofPoints_eq_foldl]

/-! ## Any sequence of operations -/

/-- The operation does not move a point, and every abscissa that it brings is a number. -/
def TermOperation.Draws : TermOperation α → Prop
  | .addPoint p => Scalar.isNaN p.x = false
  | .setPoints points => Numbered points
  | .movePoint _ _ _ => False
  | .takeDegree _ | .clearSamples _ | .setSample _ _ | .rename _ => True

/-- The points stand from left to right, and their abscissas are numbers. -/
structure Term.InOrder (t : Term α) : Prop where
  sorted : Sorted t.points
  numbered : Numbered t.points

namespace Term

theorem inOrder_sort {t : Term α} {points : List (Point α)} (h : Numbered points)
    (ht : t.points = sort points) : t.InOrder where
  sorted := ht.symm ▸ Point.sorted_sort points
  numbered := ht.symm ▸ h.of_perm (Point.sort_perm points)

omit [Scalar.Ranked α] in
theorem InOrder.of_points {t u : Term α} (ht : t.InOrder) (h : u.points = t.points) : u.InOrder :=
  ⟨h.symm ▸ ht.sorted, h.symm ▸ ht.numbered⟩

omit [Scalar.Ranked α] in
theorem InOrder.change {t : Term α} (ht : t.InOrder) {f : Term α → Except Fault (Term α)}
    (h : ∀ t u, f t = .ok u → u.points = t.points) : (Action.change f t).state.InOrder :=
  ht.of_points (Action.moves_change (R := fun t u => u.points = t.points) (fun _ => rfl) h t)

theorem InOrder.run {t : Term α} (ht : t.InOrder) {operation : TermOperation α}
    (h : operation.Draws) : (operation.run t).state.InOrder := by
  cases operation with
  | addPoint p =>
    have hall : Numbered (t.points ++ [p]) := List.forall_mem_append.mpr
      ⟨ht.numbered, List.forall_mem_singleton.mpr h⟩
    exact inOrder_sort hall rfl
  | setPoints points => exact inOrder_sort h rfl
  | movePoint index x y => exact h.elim
  | takeDegree x =>
    refine ht.change fun t u hu => ?_
    obtain ⟨dom, -, rfl⟩ := map_eq_ok.mp hu
    rfl
  | clearSamples count =>
    refine ht.change fun t u hu => ?_
    unfold clearSamples at hu
    split at hu
    · cases hu
    · obtain rfl := Except.ok.inj hu
      rfl
  | setSample index y =>
    refine ht.change fun t u hu => ?_
    obtain ⟨i, -, rfl⟩ := map_eq_ok.mp hu
    rfl
  | rename name => exact ht.of_points rfl

theorem InOrder.runs {t : Term α} (ht : t.InOrder) {operations : List (TermOperation α)}
    (h : ∀ operation ∈ operations, operation.Draws) :
    (operations.foldl (fun t operation => (operation.run t).state) t).InOrder := by
  induction operations generalizing t with
  | nil => exact ht
  | cons operation operations ih =>
    obtain ⟨hfirst, hrest⟩ := List.forall_mem_cons.mp h
    exact ih (ht.run hfirst) hrest

/-- All ways of drawing the given points lead to one shape, the only stable order from left to
right, and no sequence of operations that draw brings the points of a term out of order. -/
theorem drawn_alike {points : List (Point α)} (h : Numbered points) :
    ∃ shape, (∀ shape', StablySorted points shape' ↔ shape' = shape) ∧
      (∀ name, (ofPoints name points).points = shape) ∧
      (∀ t : Term α, (t.setPoints points).points = shape) ∧
      (∀ t : Term α, t.points = [] → (points.foldl addPoint t).points = shape) ∧
      ∀ (name : String) (operations : List (TermOperation α)),
        (∀ operation ∈ operations, operation.Draws) →
          (operations.foldl (fun t operation => (operation.run t).state)
            (ofPoints name points)).points.Pairwise fun p q => p.x ≤ q.x := by
  refine ⟨sort points, fun shape' => ⟨fun hshape => hshape.eq_sort h, ?_⟩, fun name => rfl,
    fun t => rfl, fun t hempty => ?_, fun name operations hdraws => ?_⟩
  · rintro rfl
    exact Point.stablySorted_sort h
  · have hsorted : t.points = sort [] := hempty
    rw [foldl_addPoint hsorted]
    rfl
  · have hfirst : (ofPoints name points).InOrder := inOrder_sort h rfl
    have hlast := hfirst.runs hdraws
    exact hlast.sorted.ascending hlast.numbered

/-- A rise with a vertical step down, whose points are the first and the last one given. -/
def step : List (Point Rat) := [⟨3, 1⟩, ⟨1, 0⟩, ⟨3, 0⟩]

theorem drawn_alike_step :
    Numbered step ∧ StablySorted step [⟨1, 0⟩, ⟨3, 1⟩, ⟨3, 0⟩] ∧
    (∀ t : Term Rat, t.points = [] →
      (step.foldl addPoint t).points = [⟨1, 0⟩, ⟨3, 1⟩, ⟨3, 0⟩]) ∧
    (([.addPoint ⟨2, 1⟩, .takeDegree 2, .addPoint ⟨0, 0⟩] : List (TermOperation Rat)).foldl
      (fun t operation => (operation.run t).state)
        (ofPoints "step" step)).points.Pairwise fun p q => p.x ≤ q.x := by
  have hnumber (x : Rat) : Scalar.isNaN x = false := Scalar.isNaN_eq_false.mpr ⟨x, rfl⟩
  have hnumbers : Numbered step := fun p _ => hnumber p.x
  obtain ⟨shape, hshape, hpoints, -, hadded, hruns⟩ := drawn_alike hnumbers
  have hsort : (ofPoints "step" step).points = [⟨1, 0⟩, ⟨3, 1⟩, ⟨3, 0⟩] := by decide +kernel
  obtain rfl := hsort.symm.trans (hpoints "step")
  refine ⟨hnumbers, (hshape _).mpr rfl, hadded, hruns "step" _ ?_⟩
  exact List.forall_mem_cons.mpr ⟨hnumber 2, List.forall_mem_cons.mpr ⟨trivial,
    List.forall_mem_singleton.mpr (hnumber 0)⟩⟩

end Term

end FuzzyInference
