import FuzzyInference.Proofs.Segments
import FuzzyInference.Shape

/-!
# Families of triangles that add up to one

Each term of a family is full at its own center and nothing from the centers beside it on, so its
degree is the difference of two falls, one towards each neighbour.  The differences telescope: at
every place the degrees of the whole family add up to one.
-/

namespace FuzzyInference

/-- The term has the given height at every place. -/
def Term.Traces (t : Term Rat) (height : Rat → Rat) : Prop :=
  ∀ division x, t.degree division x = .ok (height x)

/-- The degrees of the terms add up to one at every place. -/
def SumToOne (terms : List (Term Rat)) : Prop :=
  ∀ division x, ∃ degrees, terms.mapM (·.degree division x) = .ok degrees ∧ degrees.sum = 1

theorem sumToOne_of_traces {terms : List (Term Rat)} {heights : List (Rat → Rat)}
    (h : List.Forall₂ Term.Traces terms heights) (hsum : ∀ x, (heights.map (· x)).sum = 1) :
    SumToOne terms := by
  intro division x
  refine ⟨heights.map (· x), mapM_eq_ok.mpr ?_, hsum x⟩
  rw [List.forall₂_map_right_iff]
  exact h.imp fun t height ht => ht division x

namespace Shape

/-! ## Falls -/

/-- One up to `a`, nothing from `b` on, and a straight fall between them.  A fall without a width
is still one at its place. -/
def fall (a b x : Rat) : Rat := if x ≤ a then 1 else if b ≤ x then 0 else (b - x) / (b - a)

variable {a b c x : Rat} {name : String}

theorem fall_of_le (h : x ≤ a) : fall a b x = 1 := if_pos h

theorem fall_of_ge (ha : a < x) (hb : b ≤ x) : fall a b x = 0 :=
  (if_neg (not_le.mpr ha)).trans (if_pos hb)

theorem fall_between (ha : a < x) (hb : x ≤ b) : fall a b x = (b - x) / (b - a) := by
  rcases hb.lt_or_eq with hlt | rfl
  · exact (if_neg (not_le.mpr ha)).trans (if_neg (not_le.mpr hlt))
  · rw [fall_of_ge ha le_rfl, sub_self, zero_div]

/-! ## Degrees of the shapes -/

-- The line through two points, read off from its end.
theorem line_eq_fall {p q : Rat} (ha : a < x) (hb : x ≤ b) :
    p + (q - p) * (x - a) / (b - a) = q + (p - q) * fall a b x := by
  have hwidth : b - a ≠ 0 := (sub_pos.mpr (ha.trans_le hb)).ne'
  have hshare : (x - a) / (b - a) = 1 - (b - x) / (b - a) := by
    rw [eq_sub_iff_add_eq, ← add_div, sub_add_sub_comm, add_comm x b, add_sub_add_right_eq_sub,
      div_self hwidth]
  rw [fall_between ha hb, mul_div_assoc, hshare]
  ring

/-- The degrees of a term with two points. -/
theorem traces_slope (name : String) (h : a ≤ b) (p q : Rat) :
    (Term.ofPoints name [⟨a, p⟩, ⟨b, q⟩]).Traces fun x => q + (p - q) * fall a b x := by
  have hsorted : Point.Sorted [⟨a, p⟩, ⟨b, q⟩] := List.pairwise_pair.mpr (not_lt.mpr h)
  have hpoints : (Term.ofPoints name [⟨a, p⟩, ⟨b, q⟩]).points = [⟨a, p⟩, ⟨b, q⟩] := hsorted.sort_eq
  intro division x
  show _ = Except.ok (q + (p - q) * fall a b x)
  rcases le_or_gt x a with ha | ha
  · rw [Term.degree_of_le_first hpoints ha, fall_of_le ha, mul_one, add_sub_cancel]
  · rcases le_or_gt b x with hb | hb
    · rw [Term.degree_of_last_le hpoints (not_le.mpr ha) hb, fall_of_ge ha hb, mul_zero, add_zero]
      rfl
    · rw [← line_eq_fall ha hb.le]
      exact Term.degree_of_neighbours (p := ⟨a, p⟩) (q := ⟨b, q⟩) (i := 0) hpoints
        (hpoints.symm ▸ hsorted) ha hb (by rw [hpoints]; rfl) (by rw [hpoints]; rfl) ha hb.le
        division

theorem exists_leftShoulder (name : String) (h : a ≤ b) :
    ∃ t, leftShoulder name a b = .ok t ∧ t.name = name ∧ t.Traces (fall a b) := by
  refine ⟨_, if_pos (decide_eq_true h), rfl, fun division x => ?_⟩
  exact (traces_slope name h 1 0 division x).trans (congrArg Except.ok (by ring))

theorem exists_rightShoulder (name : String) (h : a ≤ b) :
    ∃ t, rightShoulder name a b = .ok t ∧ t.name = name ∧ t.Traces fun x => 1 - fall a b x := by
  refine ⟨_, if_pos (decide_eq_true h), rfl, fun division x => ?_⟩
  exact (traces_slope name h 0 1 division x).trans (congrArg Except.ok (by ring))

/-- A triangle with two slopes, or with none. -/
theorem exists_triangle (name : String) (h : a < b ∧ b < c ∨ a = b ∧ b = c) :
    ∃ t, triangle name a b c = .ok t ∧ t.name = name ∧
      t.Traces fun x => fall b c x - fall a b x := by
  have hab : a ≤ b := h.elim (fun h => h.1.le) fun h => h.1.le
  have hbc : b ≤ c := h.elim (fun h => h.2.le) fun h => h.2.le
  have hsorted : Point.Sorted [⟨a, 0⟩, ⟨b, 1⟩, ⟨c, 0⟩] :=
    List.pairwise_cons.mpr ⟨by simp [hab, hab.trans hbc], List.pairwise_pair.mpr (not_lt.mpr hbc)⟩
  have hpoints : (Term.ofPoints name [⟨a, 0⟩, ⟨b, 1⟩, ⟨c, 0⟩]).points =
      [⟨a, 0⟩, ⟨b, 1⟩, ⟨c, 0⟩] := hsorted.sort_eq
  refine ⟨_, if_pos (by simp [hab, hbc]), rfl, fun division x => ?_⟩
  show _ = Except.ok (fall b c x - fall a b x)
  rcases le_or_gt x a with ha | ha
  · rw [Term.degree_of_le_first hpoints ha, fall_of_le (ha.trans hab), fall_of_le ha, sub_self]
  · rcases le_or_gt c x with hc | hc
    · have hb : b < x := h.elim (fun h => h.2.trans_le hc) fun h => h.1 ▸ ha
      rw [Term.degree_of_last_le hpoints (not_le.mpr ha) hc, fall_of_ge hb hc,
        fall_of_ge ha hb.le, sub_self]
      rfl
    · rcases le_or_gt x b with hb | hb
      · rw [Term.degree_of_neighbours (p := ⟨a, 0⟩) (q := ⟨b, 1⟩) (i := 0) hpoints
          (hpoints.symm ▸ hsorted) ha hc (by rw [hpoints]; rfl) (by rw [hpoints]; rfl) ha hb,
          line_eq_fall ha hb, fall_of_le hb, zero_sub, neg_one_mul, sub_eq_add_neg]
      · rw [Term.degree_of_neighbours (p := ⟨b, 1⟩) (q := ⟨c, 0⟩) (i := 1) hpoints
          (hpoints.symm ▸ hsorted) ha hc (by rw [hpoints]; rfl) (by rw [hpoints]; rfl) hb hc.le,
          line_eq_fall hb hc.le, fall_of_ge ha hb.le, zero_add, sub_zero, one_mul, sub_zero]

/-! ## Heights of a family -/

/-- The heights of the terms at `center` and the centers behind it: each is the fall towards the next
center less the fall that ends where the term is full.  For the first term that is `before`. -/
def crests (before : Rat → Rat) (center : Rat) : List Rat → List (Rat → Rat)
  | [] => [fun x => 1 - before x]
  | after :: rest =>
    (fun x => fall center after x - before x) :: crests (fall center after) after rest

theorem sum_crests (before : Rat → Rat) (center : Rat) (rest : List Rat) (x : Rat) :
    ((crests before center rest).map (· x)).sum = 1 - before x := by
  induction rest generalizing before center with
  | nil => rw [crests, List.map_singleton, List.sum_singleton]
  | cons after rest ih =>
    rw [crests, List.map_cons, List.sum_cons, ih]
    ring

-- Where the fall before the family has not begun, its terms have no height.
theorem crests_of_le {before : Rat → Rat} {center : Rat} {rest : List Rat}
    (hordered : (center :: rest).Pairwise (· < ·)) (hx : x ≤ center) (hbefore : before x = 1) :
    ∀ height ∈ crests before center rest, height x = 0 := by
  induction rest generalizing before center with
  | nil =>
    refine List.forall_mem_singleton.mpr ?_
    show 1 - before x = 0
    rw [hbefore, sub_self]
  | cons after rest ih =>
    have hcenter : center < after := List.rel_of_pairwise_cons hordered List.mem_cons_self
    refine List.forall_mem_cons.mpr ⟨?_, ih hordered.tail (hx.trans hcenter.le) (fall_of_le hx)⟩
    show fall center after x - before x = 0
    rw [hbefore, fall_of_le hx, sub_self]

/-- A term of a family is full at its own center and has no height at any other. -/
theorem crests_at_center {before : Rat → Rat} {center : Rat} {rest : List Rat}
    (hordered : (center :: rest).Pairwise (· < ·)) (hbefore : ∀ y, center ≤ y → before y = 0)
    {i j : Nat} {height : Rat → Rat} (hheight : (crests before center rest)[i]? = some height)
    (hx : (center :: rest)[j]? = some x) : height x = if i = j then 1 else 0 := by
  induction rest generalizing before center i j with
  | nil =>
    obtain ⟨rfl, rfl⟩ : i = 0 ∧ (fun x => 1 - before x) = height := by
      simpa [crests, List.getElem?_singleton] using hheight
    obtain ⟨rfl, rfl⟩ : j = 0 ∧ center = x := by simpa [List.getElem?_singleton] using hx
    show 1 - before center = 1
    rw [hbefore center le_rfl, sub_zero]
  | cons after rest ih =>
    have hcenter : center < after := List.rel_of_pairwise_cons hordered List.mem_cons_self
    have hafter : ∀ y, after ≤ y → fall center after y = 0 :=
      fun y hy => fall_of_ge (hcenter.trans_le hy) hy
    cases i with
    | zero =>
      obtain rfl := Option.some.inj hheight
      show fall center after x - before x = if 0 = j then 1 else 0
      cases j with
      | zero =>
        obtain rfl := Option.some.inj hx
        rw [fall_of_le le_rfl, hbefore center le_rfl, sub_zero, if_pos rfl]
      | succ j =>
        have hmem : x ∈ after :: rest := List.mem_of_getElem? (List.getElem?_cons_succ ▸ hx)
        have hle : after ≤ x := by
          rcases List.mem_cons.mp hmem with heq | hmem
          · exact heq.ge
          · exact (List.rel_of_pairwise_cons hordered.tail hmem).le
        rw [hafter x hle, hbefore x (hcenter.le.trans hle), sub_self, if_neg (Nat.succ_ne_zero j).symm]
    | succ i =>
      cases j with
      | zero =>
        obtain rfl := Option.some.inj hx
        rw [if_neg (Nat.succ_ne_zero i)]
        exact crests_of_le hordered.tail hcenter.le (fall_of_le le_rfl) height
          (List.mem_of_getElem? hheight)
      | succ j =>
        rw [ih hordered.tail hafter hheight hx]
        simp only [Nat.add_right_cancel_iff]

/-! ## Families with given centers -/

/-- Centers that rise from each to the next, or that are all one. -/
def Spread (centers : List Rat) : Prop := centers.Pairwise (· < ·) ∨ centers.Pairwise (· = ·)

theorem Spread.tail {center : Rat} {centers : List Rat} (h : Spread (center :: centers)) :
    Spread centers :=
  h.imp (fun h => h.tail) fun h => h.tail

theorem Spread.slopes {rest : List Rat} (h : Spread (a :: b :: c :: rest)) :
    a < b ∧ b < c ∨ a = b ∧ b = c := by
  have hmem : c ∈ c :: rest := List.mem_cons_self
  exact h.imp
    (fun h => ⟨List.rel_of_pairwise_cons h List.mem_cons_self, List.rel_of_pairwise_cons h.tail hmem⟩)
    fun h => ⟨List.rel_of_pairwise_cons h List.mem_cons_self, List.rel_of_pairwise_cons h.tail hmem⟩

theorem Spread.le {rest : List Rat} (h : Spread (a :: b :: rest)) : a ≤ b :=
  h.elim (fun h => (List.rel_of_pairwise_cons h List.mem_cons_self).le)
    fun h => (List.rel_of_pairwise_cons h List.mem_cons_self).le

theorem exists_trianglesFrom {before center : Rat} {rest : List (String × Rat)} (name : String)
    (h : Spread (before :: center :: rest.map Prod.snd)) :
    ∃ terms, trianglesFrom before name center rest = .ok terms ∧
      terms.map Term.name = name :: rest.map Prod.fst ∧
      List.Forall₂ Term.Traces terms (crests (fall before center) center (rest.map Prod.snd)) := by
  induction rest generalizing before center name with
  | nil =>
    obtain ⟨t, ht, hname, htraces⟩ := exists_rightShoulder name h.le
    exact ⟨[t], bind_eq_ok.mpr ⟨t, ht, rfl⟩, congrArg ([·]) hname, .cons htraces .nil⟩
  | cons next rest ih =>
    obtain ⟨t, ht, hname, htraces⟩ := exists_triangle name h.slopes
    obtain ⟨terms, hterms, hnames, hall⟩ := ih next.1 h.tail
    refine ⟨t :: terms, bind_eq_ok.mpr ⟨t, ht, bind_eq_ok.mpr ⟨terms, hterms, rfl⟩⟩, ?_,
      .cons htraces hall⟩
    rw [List.map_cons, hname, hnames, List.map_cons]

/-- The heights of all terms of a family. -/
def profile : List Rat → List (Rat → Rat)
  | [] => []
  | center :: rest => crests (fun _ => 0) center rest

theorem exists_trianglePartition {centers : List (String × Rat)} (hlength : 2 ≤ centers.length)
    (h : Spread (centers.map Prod.snd)) :
    ∃ terms, trianglePartition centers = .ok terms ∧
      terms.map Term.name = centers.map Prod.fst ∧
      List.Forall₂ Term.Traces terms (profile (centers.map Prod.snd)) := by
  match centers with
  | (name, center) :: (next, after) :: rest =>
    obtain ⟨t, ht, hname, htraces⟩ := exists_leftShoulder name h.le
    obtain ⟨terms, hterms, hnames, hall⟩ := exists_trianglesFrom next h
    refine ⟨t :: terms, bind_eq_ok.mpr ⟨t, ht, bind_eq_ok.mpr ⟨terms, hterms, rfl⟩⟩, ?_,
      .cons (fun division x => ?_) hall⟩
    · rw [List.map_cons, hname, hnames]
      rfl
    · rw [htraces division x, sub_zero]

theorem sum_profile {centers : List Rat} (h : centers ≠ []) (x : Rat) :
    ((profile centers).map (· x)).sum = 1 := by
  obtain ⟨center, rest, rfl⟩ := List.exists_cons_of_ne_nil h
  rw [profile, sum_crests, sub_zero]

theorem profile_at_center {centers : List Rat} (hordered : centers.Pairwise (· < ·)) {i j : Nat}
    {height : Rat → Rat} (hheight : (profile centers)[i]? = some height)
    (hx : centers[j]? = some x) : height x = if i = j then 1 else 0 := by
  cases centers with
  | nil => cases hx
  | cons center rest => exact crests_at_center hordered (fun _ _ => rfl) hheight hx

/-! ## Families with falling centers -/

section Failures

variable {α : Type} [Scalar α] {before center : α} {rest : List (String × α)} {f : Fault}

theorem disordered_of_checked {ordered : Bool} {points : List (Point α)}
    (h : checked ordered name points = .error f) : f = .disordered := by
  unfold checked at h
  split at h
  · cases h
  · exact (Except.error.inj h).symm

theorem disordered_of_trianglesFrom (h : trianglesFrom before name center rest = .error f) :
    f = .disordered := by
  induction rest generalizing before center name with
  | nil =>
    rcases bind_eq_error.mp h with h | ⟨t, -, h⟩
    · exact disordered_of_checked h
    · cases h
  | cons next rest ih =>
    rcases bind_eq_error.mp h with h | ⟨t, -, h⟩
    · exact disordered_of_checked h
    · rcases bind_eq_error.mp h with h | ⟨terms, -, h⟩
      · exact ih h
      · cases h

theorem ordered_of_checked {ordered : Bool} {points : List (Point α)} {t : Term α}
    (h : checked ordered name points = .ok t) : ordered = true := by
  unfold checked at h
  split at h
  · assumption
  · cases h

theorem chain_of_trianglesFrom {terms : List (Term α)} (prior : String)
    (h : trianglesFrom before name center rest = .ok terms) :
    ((prior, before) :: (name, center) :: rest).IsChain fun p q => p.2 ≤ q.2 := by
  induction rest generalizing before center prior name terms with
  | nil =>
    obtain ⟨t, ht, -⟩ := bind_eq_ok.mp h
    exact List.isChain_pair.mpr (of_decide_eq_true (ordered_of_checked ht))
  | cons next rest ih =>
    obtain ⟨t, ht, h⟩ := bind_eq_ok.mp h
    obtain ⟨terms, hterms, -⟩ := bind_eq_ok.mp h
    have hordered := Bool.and_eq_true_iff.mp (ordered_of_checked ht)
    exact List.isChain_cons_cons.mpr ⟨of_decide_eq_true hordered.1, ih name hterms⟩

/-- A family whose centers fall somewhere cannot be made. -/
theorem trianglePartition_of_falling {centers : List (String × α)} {i : Nat} {p q : String × α}
    (hp : centers[i]? = some p) (hq : centers[i + 1]? = some q) (hfall : ¬ p.2 ≤ q.2) :
    trianglePartition centers = .error .disordered := by
  match centers with
  | [] => cases hp
  | [_] => cases hq
  | (first, a) :: (second, b) :: rest =>
    cases hresult : trianglePartition ((first, a) :: (second, b) :: rest) with
    | error f =>
      rcases bind_eq_error.mp hresult with h | ⟨t, -, h⟩
      · rw [disordered_of_checked h]
      · rcases bind_eq_error.mp h with h | ⟨terms, -, h⟩
        · rw [disordered_of_trianglesFrom h]
        · cases h
    | ok terms =>
      obtain ⟨t, ht, h⟩ := bind_eq_ok.mp hresult
      obtain ⟨terms, hterms, -⟩ := bind_eq_ok.mp h
      obtain ⟨hi, rfl⟩ := List.getElem?_eq_some_iff.mp hp
      obtain ⟨hnext, rfl⟩ := List.getElem?_eq_some_iff.mp hq
      exact absurd (List.isChain_iff_getElem.mp (chain_of_trianglesFrom first hterms) i hnext) hfall

end Failures

/-! ## Families at equal distances -/

section Uniform

variable {α : Type} [Scalar α]

theorem trianglesFrom_range (name : Nat → String) (peak : Nat → α) (m : Nat) :
    trianglesFrom (peak 0) (name 1) (peak 1)
        ((List.range m).map fun i => (name (i + 2), peak (i + 2))) = (do
      let middle ← (List.range m).mapM fun i =>
        triangle (name (i + 1)) (peak i) (peak (i + 1)) (peak (i + 2))
      let last ← rightShoulder (name (m + 1)) (peak m) (peak (m + 1))
      return middle ++ [last]) := by
  induction m generalizing name peak with
  | zero => rfl
  | succ m ih =>
    have hrest := ih (fun i => name (i + 1)) fun i => peak (i + 1)
    rw [List.range_succ_eq_map, List.map_cons, List.map_map, List.mapM_cons, List.mapM_map,
      trianglesFrom]
    simp only [bind_assoc, pure_bind]
    refine bind_congr fun t => (congrArg (· >>= fun terms => pure (t :: terms)) hrest).trans ?_
    simp only [bind_assoc, pure_bind, List.cons_append]
    rfl

/-- A family with numbered centers, its shoulders and its triangles apart. -/
theorem trianglePartition_range (name : Nat → String) (peak : Nat → α) (m : Nat) :
    trianglePartition ((List.range (m + 2)).map fun i => (name i, peak i)) = (do
      let first ← leftShoulder (name 0) (peak 0) (peak 1)
      let middle ← (List.range m).mapM fun i =>
        triangle (name (i + 1)) (peak i) (peak (i + 1)) (peak (i + 2))
      let last ← rightShoulder (name (m + 1)) (peak m) (peak (m + 1))
      return first :: (middle ++ [last])) := by
  have hcenters : (List.range (m + 2)).map (fun i => (name i, peak i)) =
      (name 0, peak 0) :: (name 1, peak 1) ::
        (List.range m).map fun i => (name (i + 2), peak (i + 2)) := by
    rw [List.range_succ_eq_map, List.range_succ_eq_map]
    simp only [List.map_cons, List.map_map]
    rfl
  rw [hcenters, trianglePartition, trianglesFrom_range]
  simp only [bind_assoc, pure_bind]

theorem nameAt_of_lt {names : List String} {i : Nat} (h : i < names.length) :
    nameAt names i = .ok (names.getD i "") := by
  unfold nameAt
  rw [List.getD_eq_getElem?_getD, List.getElem?_eq_getElem h]
  rfl

end Uniform

/-- Centers at equal distances from `x₀` to `x₁`, with names. -/
def evenCenters (names : List String) (x₀ x₁ : Rat) (n : Nat) : List (String × Rat) :=
  (List.range n).map fun i => (names.getD i "", x₀ + i * ((x₁ - x₀) / ((n - 1 : Nat) : Rat)))

theorem length_evenCenters (names : List String) (x₀ x₁ : Rat) (n : Nat) :
    (evenCenters names x₀ x₁ n).length = n := by
  rw [evenCenters, List.length_map, List.length_range]

theorem fst_evenCenters {names : List String} {n : Nat} (h : names.length = n) (x₀ x₁ : Rat) :
    (evenCenters names x₀ x₁ n).map Prod.fst = names := by
  refine List.ext_getElem (by rw [List.length_map, length_evenCenters, h]) fun i hi hi' => ?_
  simp [evenCenters, hi']

/-- A uniform family is the family with centers at equal distances. -/
theorem uniformPartition_eq {names : Names} {count : Int} (hcount : 2 ≤ count)
    (hnames : (names.expand count.toNat).length = count.toNat) (x₀ x₁ : Rat) :
    uniformPartition names x₀ x₁ count =
      trianglePartition (evenCenters (names.expand count.toNat) x₀ x₁ count.toNat) := by
  have htwo : 2 ≤ count.toNat := by omega
  have hread : ((Setting.integer (count - 1) : Setting Rat).toScalar?).mapError Fault.setting =
      .ok (Scalar.ofInt (count - 1)) := rfl
  unfold uniformPartition
  rw [if_neg (not_lt.mpr hcount), hread]
  dsimp only [bind, Except.bind]
  generalize names.expand count.toNat = list at hnames ⊢
  generalize count.toNat = n at hnames htwo ⊢
  obtain ⟨m, rfl⟩ := Nat.exists_eq_add_of_le' htwo
  unfold evenCenters
  have hfirst : nameAt list 0 = .ok (list.getD 0 "") := nameAt_of_lt (by omega)
  have hlast : nameAt list (list.length - 1) = .ok (list.getD (m + 1) "") := by
    rw [nameAt_of_lt (by omega), hnames]
    rfl
  have hmiddle : min (m + 2 - 2) list.length = m := by omega
  -- the last peak is the end of the range
  have hend : x₀ + ((m + 1 : Nat) : Rat) * ((x₁ - x₀) / ((m + 2 - 1 : Nat) : Rat)) = x₁ := by
    rw [Nat.add_sub_cancel_right (m + 1) 1,
      mul_div_cancel₀ _ (Nat.cast_ne_zero.mpr (Nat.succ_ne_zero m)), add_sub_cancel]
  rw [trianglePartition_range, hend, Nat.cast_zero, zero_mul, add_zero, Nat.cast_one, one_mul,
    hfirst, hlast, hmiddle, mapM_congr fun i hi => ?_]
  · rfl
  · have hi : i + 1 < list.length := by
      have := List.mem_range.mp hi
      omega
    rw [nameAt_of_lt hi]

theorem Names.length_expand {names : Names} {count : Int} (hcount : 2 ≤ count)
    (hnames : ∀ list, names = .listed list → list.length = count) :
    (names.expand count.toNat).length = count.toNat := by
  cases names with
  | stem name => rw [expand, List.length_map, List.length_range]
  | listed list =>
    have := hnames list rfl
    rw [expand]
    omega

theorem spread_evenCenters {x₀ x₁ : Rat} {n : Nat} (names : List String) (hn : 2 ≤ n)
    (hends : x₀ ≤ x₁) : Spread ((evenCenters names x₀ x₁ n).map Prod.snd) := by
  unfold evenCenters
  rw [List.map_map]
  rcases hends.lt_or_eq with hlt | rfl
  · have hcount : (0 : Rat) < ((n - 1 : Nat) : Rat) := Nat.cast_pos.mpr (by omega)
    have hstep : 0 < (x₁ - x₀) / ((n - 1 : Nat) : Rat) := div_pos (sub_pos.mpr hlt) hcount
    refine .inl (List.pairwise_map.mpr (List.pairwise_lt_range.imp fun {i j} hij => ?_))
    exact add_lt_add_right (mul_lt_mul_of_pos_right (Nat.cast_lt.mpr hij) hstep) x₀
  · -- all centers are at the one end
    refine .inr (List.pairwise_map.mpr (List.pairwise_lt_range.imp fun _ => ?_))
    show x₀ + _ * ((x₀ - x₀) / _) = x₀ + _ * ((x₀ - x₀) / _)
    rw [sub_self, zero_div, mul_zero, mul_zero]

/-! ## Sums of degrees -/

theorem sumToOne_of_profile {centers : List (String × Rat)} {terms : List (Term Rat)}
    (hcenters : centers ≠ [])
    (h : List.Forall₂ Term.Traces terms (profile (centers.map Prod.snd))) : SumToOne terms :=
  sumToOne_of_traces h (sum_profile (mt List.map_eq_nil_iff.mp hcenters))

/-- The degrees of a uniform family, and those of a family whose centers rise, add up to one at
every place.  Each term of the latter is full at its own center and nothing at the other ones.
Centers that fall are refused. -/
theorem partitions_sumToOne :
    (∀ (names : Names) (x₀ x₁ : Rat) (count : Int), 2 ≤ count → x₀ ≤ x₁ →
      (∀ list, names = .listed list → list.length = count) →
        ∃ terms, uniformPartition names x₀ x₁ count = .ok terms ∧ terms.length = count ∧
          terms.map Term.name = names.expand count.toNat ∧ SumToOne terms) ∧
    (∀ centers : List (String × Rat), 2 ≤ centers.length →
      (centers.map Prod.snd).Pairwise (· < ·) →
        ∃ terms, trianglePartition centers = .ok terms ∧
          terms.map Term.name = centers.map Prod.fst ∧ SumToOne terms ∧
          ∀ (i j : Nat) t center, terms[i]? = some t → centers[j]? = some center →
            ∀ division, t.degree division center.2 = .ok (if i = j then 1 else 0)) ∧
    ∀ (centers : List (String × Rat)) (i : Nat) p q, centers[i]? = some p →
      centers[i + 1]? = some q → q.2 < p.2 → trianglePartition centers = .error .disordered := by
  refine ⟨?_, ?_, fun centers i p q hp hq hfall =>
    trianglePartition_of_falling hp hq (not_le.mpr hfall)⟩
  · intro names x₀ x₁ count hcount hends hnames
    have hlength := Names.length_expand hcount hnames
    have htwo : 2 ≤ count.toNat := by omega
    have hcenters := length_evenCenters (names.expand count.toNat) x₀ x₁ count.toNat
    obtain ⟨terms, hterms, hnamed, htraces⟩ := exists_trianglePartition (by rwa [hcenters])
      (spread_evenCenters (names.expand count.toNat) htwo hends)
    have hsum := sumToOne_of_profile (List.ne_nil_of_length_pos (by omega)) htraces
    rw [← uniformPartition_eq hcount hlength] at hterms
    rw [fst_evenCenters hlength] at hnamed
    refine ⟨terms, hterms, ?_, hnamed, hsum⟩
    rw [← List.length_map, hnamed, hlength]
    omega
  · intro centers hlength hordered
    obtain ⟨terms, hterms, hnamed, htraces⟩ := exists_trianglePartition hlength (.inl hordered)
    have hsum := sumToOne_of_profile (List.ne_nil_of_length_pos (by omega)) htraces
    refine ⟨terms, hterms, hnamed, hsum, fun i j t center ht hcenter division => ?_⟩
    obtain ⟨hcount, htrace⟩ := List.forall₂_iff_get.mp htraces
    obtain ⟨hi, rfl⟩ := List.getElem?_eq_some_iff.mp ht
    have hheight := List.getElem?_eq_getElem (hcount ▸ hi)
    refine (htrace i hi (hcount ▸ hi) division center.2).trans (congrArg Except.ok ?_)
    exact profile_at_center hordered hheight (by rw [List.getElem?_map, hcenter, Option.map_some])

theorem partitions_sumToOne_three :
    (∃ terms, uniformPartition (.stem "t") 0 1 3 = .ok terms ∧
      terms.map Term.name = ["t-0", "t-1", "t-2"] ∧ SumToOne terms) ∧
    (∃ terms, trianglePartition [("low", 0), ("mid", 1), ("high", (4 : Rat))] = .ok terms ∧
      SumToOne terms ∧
      ∀ t, terms[1]? = some t → t.degree .checked 1 = .ok 1 ∧ t.degree .checked 4 = .ok 0) ∧
    trianglePartition [("low", 0), ("mid", 2), ("high", (1 : Rat))] = .error .disordered := by
  obtain ⟨huniform, hcenters, hfalling⟩ := partitions_sumToOne
  refine ⟨?_, ?_, hfalling _ 1 _ _ rfl rfl (by decide +kernel)⟩
  · obtain ⟨terms, hterms, -, hnames, hsum⟩ :=
      huniform (.stem "t") 0 1 3 (by decide) (by decide +kernel) (by simp)
    exact ⟨terms, hterms, hnames.trans (by decide +kernel), hsum⟩
  · obtain ⟨terms, hterms, -, hsum, hpeaks⟩ :=
      hcenters [("low", 0), ("mid", 1), ("high", 4)] (by decide) (by decide +kernel)
    exact ⟨terms, hterms, hsum, fun t ht =>
      ⟨hpeaks 1 1 t _ ht rfl .checked, hpeaks 1 2 t _ ht rfl .checked⟩⟩

end Shape

end FuzzyInference
