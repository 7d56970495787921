import FuzzyInference.OutputVariable
import FuzzyInference.Proofs.Outcomes

/-!
# Grids that can be built

The grid of an output is built whenever it has a term and each of its terms a point.
-/

namespace FuzzyInference

variable {α : Type}

theorem Term.exists_domain {t : Term α} (h : t.points ≠ []) : ∃ d, t.domain = .ok d := by
  obtain ⟨p, ps, hpoints⟩ := List.exists_cons_of_ne_nil h
  unfold Term.domain
  rw [hpoints]
  exact ⟨_, rfl⟩

theorem Term.domains_ne_nil {terms : List (Term α)} {domains : List (α × α)} (hterms : terms ≠ [])
    (h : terms.mapM Term.domain = .ok domains) : domains ≠ [] := by
  rintro rfl
  rw [mapM_eq_ok, List.forall₂_nil_right_iff] at h
  exact hterms h

variable [Scalar α]

theorem Point.exists_height_total (p q : Point α) (x : α) : ∃ y, height .total p q x = .ok y := by
  unfold height
  rw [if_neg (by simp)]
  exact ⟨_, rfl⟩

theorem Term.exists_degree_total {t : Term α} (h : t.points ≠ []) (x : α) :
    ∃ y, t.degree .total x = .ok y := by
  obtain ⟨p, ps, hpoints⟩ := List.exists_cons_of_ne_nil h
  unfold Term.degree
  rw [hpoints]
  dsimp only
  split
  · exact ⟨_, rfl⟩
  · split
    · exact ⟨_, rfl⟩
    · exact Point.exists_height_total _ _ _

theorem Term.exists_sampleOn {t : Term α} (h : t.points ≠ []) (xs : List α) :
    ∃ t', t.sampleOn xs = .ok t' := by
  obtain ⟨samples, hsamples⟩ :=
    exists_mapM_eq_ok.mpr fun x (_ : x ∈ xs) => t.exists_degree_total h x
  exact ⟨_, bind_eq_ok.mpr ⟨samples, hsamples, rfl⟩⟩

theorem Term.sampleOn_eq_ok {t t' : Term α} {xs : List α} :
    t.sampleOn xs = .ok t' ↔ ∃ samples, xs.mapM (t.degree .total) = .ok samples ∧
      t' = { t with samples, dom := samples.getLastD t.dom } := by
  unfold Term.sampleOn
  rw [bind_eq_ok]
  constructor
  · rintro ⟨samples, hsamples, h⟩
    exact ⟨samples, hsamples, (Except.ok.inj h).symm⟩
  · rintro ⟨samples, hsamples, rfl⟩
    exact ⟨samples, hsamples, rfl⟩

theorem OutputVariable.discretize_eq_ok {o o' : OutputVariable α} :
    o.discretize = .ok o' ↔ o.terms ≠ [] ∧ ∃ domains terms, o.terms.mapM Term.domain = .ok domains ∧
      o.terms.mapM (Term.sampleOn · (span domains o.resolution)) = .ok terms ∧
      o' = { o with
        terms, grid := some ⟨span domains o.resolution, List.replicate o.resolution 0⟩ } := by
  unfold OutputVariable.discretize
  by_cases hterms : o.terms.isEmpty = true
  · rw [if_pos hterms]
    constructor
    · intro h
      cases h
    · rintro ⟨hne, -⟩
      exact absurd (List.isEmpty_iff.mp hterms) hne
  · rw [if_neg hterms]
    constructor
    · intro h
      obtain ⟨domains, hdomains, h⟩ := bind_eq_ok.mp h
      obtain ⟨terms, hsampled, h⟩ := bind_eq_ok.mp h
      exact ⟨fun hnil => hterms (List.isEmpty_iff.mpr hnil), domains, terms, hdomains, hsampled,
        (Except.ok.inj h).symm⟩
    · rintro ⟨-, domains, terms, hdomains, hsampled, rfl⟩
      exact bind_eq_ok.mpr ⟨domains, hdomains, bind_eq_ok.mpr ⟨terms, hsampled, rfl⟩⟩

/-! ## Building a grid step by step -/

-- The samples are written behind those that have been written before.
theorem Term.sampleFrom_of_ok {t : Term α} {xs ys : List α}
    (h : xs.mapM (t.degree .total) = .ok ys) (done : List α) : sampleFrom done xs t =
      ⟨{ t with samples := done.reverse ++ ys, dom := ys.getLastD t.dom }, [], .ok ()⟩ := by
  induction xs generalizing t done ys with
  | nil =>
    obtain rfl : [] = ys := Except.ok.inj h
    rw [List.append_nil]
    rfl
  | cons x xs ih =>
    rw [List.mapM_cons] at h
    obtain ⟨y, hy, h⟩ := bind_eq_ok.mp h
    obtain ⟨ys', hys', h⟩ := bind_eq_ok.mp h
    obtain rfl : y :: ys' = ys := Except.ok.inj h
    have hfuzzify : t.fuzzify .total x = .ok { t with dom := y } := map_eq_ok.mpr ⟨y, hy, rfl⟩
    have hrest := ih (t := { t with dom := y }) hys' (y :: done)
    unfold sampleFrom
    rw [hfuzzify]
    dsimp only
    rw [hrest, List.reverse_cons, List.append_assoc]
    cases ys' <;> rfl

theorem Term.takeSamples_of_ok {t t' : Term α} {xs : List α} (h : t.sampleOn xs = .ok t') :
    takeSamples xs t = ⟨t', [], .ok ()⟩ := by
  obtain ⟨samples, hsamples, rfl⟩ := sampleOn_eq_ok.mp h
  have hclear : t.clearSamples xs.length =
      .ok { t with samples := List.replicate xs.length 0 } := by
    unfold clearSamples
    rw [if_neg (by omega)]
    rfl
  have hcleared := Action.change_of_ok (f := (clearSamples · xs.length)) hclear
  have hsampled := sampleFrom_of_ok (t := { t with samples := List.replicate xs.length 0 }) hsamples
  exact (Action.bind_of_quiet hcleared _).trans (hsampled [])

theorem Scalar.length_spaced (a b : α) (count : Nat) : (spaced a b count).length = count := by
  match count with
  | 0 => rfl
  | 1 => rfl
  | n + 2 =>
    unfold spaced
    simp

theorem OutputVariable.length_span {domains : List (α × α)} (h : domains ≠ []) (count : Nat) :
    (span domains count).length = count := by
  cases domains with
  | nil => exact absurd rfl h
  | cons d domains => exact Scalar.length_spaced _ _ count

/-- A grid that has just been built has as many points, and as many heights, as the variable asks
for. -/
theorem OutputVariable.exists_grid_of_discretize {o o' : OutputVariable α}
    (h : o.discretize = .ok o') : o'.resolution = o.resolution ∧ ∃ grid, o'.grid = some grid ∧
      grid.xs.length = o.resolution ∧ grid.ys.length = o.resolution := by
  obtain ⟨hterms, domains, terms, hdomains, -, rfl⟩ := discretize_eq_ok.mp h
  exact ⟨rfl, _, rfl, length_span (Term.domains_ne_nil hterms hdomains) _, List.length_replicate⟩

theorem OutputVariable.exists_discretize {o : OutputVariable α} (hterms : o.terms ≠ [])
    (hpoints : ∀ t ∈ o.terms, t.points ≠ []) : ∃ o', o.discretize = .ok o' := by
  obtain ⟨domains, hdomains⟩ := exists_mapM_eq_ok.mpr fun t ht => Term.exists_domain (hpoints t ht)
  obtain ⟨terms, hsampled⟩ := exists_mapM_eq_ok.mpr fun t ht =>
    Term.exists_sampleOn (hpoints t ht) (span domains o.resolution)
  exact ⟨_, discretize_eq_ok.mpr ⟨hterms, domains, terms, hdomains, hsampled, rfl⟩⟩

theorem Action.onEach_of_forall₂ {ρ : Type} {act : Action ρ Unit} {xs ys : List ρ}
    (h : List.Forall₂ (fun x y => act x = ⟨y, [], .ok ()⟩) xs ys) :
    onEach act xs = ⟨ys, [], .ok ()⟩ := by
  induction h with
  | nil => rfl
  | cons hx _ ih =>
    rw [onEach, hx]
    dsimp only
    rw [ih]
    rfl

namespace OutputVariable

theorem discretize_eq (o : OutputVariable α) : o.discretize = o.gridPoints >>= fun xs =>
    (o.terms.mapM (Term.sampleOn · xs)).map fun terms =>
      { o with terms, grid := some ⟨xs, List.replicate o.resolution 0⟩ } := by
  unfold discretize gridPoints
  by_cases hterms : o.terms.isEmpty = true
  · rw [if_pos hterms, if_pos hterms]
    rfl
  · rw [if_neg hterms, if_neg hterms]
    cases o.terms.mapM Term.domain with
    | error f => rfl
    | ok domains =>
      show (o.terms.mapM (Term.sampleOn · (span domains o.resolution)) >>= _) =
        Except.map _ (o.terms.mapM (Term.sampleOn · (span domains o.resolution)))
      cases o.terms.mapM (Term.sampleOn · (span domains o.resolution)) <;> rfl

-- Where the grid has points, the terms have been asked for their domains.
theorem points_of_gridPoints {o : OutputVariable α} {xs : List α} (h : o.gridPoints = .ok xs) :
    ∀ t ∈ o.terms, t.points ≠ [] := by
  intro t ht hpoints
  unfold gridPoints at h
  split at h
  · cases h
  · obtain ⟨domains, hdomains, -⟩ := bind_eq_ok.mp h
    obtain ⟨d, -, hd⟩ := exists_mem_of_mapM_eq_ok hdomains ht
    unfold Term.domain at hd
    rw [hpoints] at hd
    cases hd

/-- The steps that build a grid amount to a change that is made as a whole or not at all: what can
fail comes before the first of them, as a term that has a domain can be sampled. -/
theorem buildGrid_eq : buildGrid (α := α) = Action.change discretize := by
  funext o
  cases hxs : o.gridPoints with
  | error f =>
    have hdiscretize : o.discretize = .error f := by
      rw [discretize_eq, hxs]
      rfl
    rw [Action.change_of_error hdiscretize]
    exact Action.bind_of_error (Action.ask_of_error hxs) _
  | ok xs =>
    obtain ⟨terms, hterms⟩ := exists_mapM_eq_ok.mpr fun t ht =>
      Term.exists_sampleOn (points_of_gridPoints hxs t ht) xs
    have hdiscretize : o.discretize = .ok
        { o with terms, grid := some ⟨xs, List.replicate o.resolution 0⟩ } := by
      rw [discretize_eq, hxs]
      exact map_eq_ok.mpr ⟨terms, hterms, rfl⟩
    have hsampled : Action.onEach (Term.takeSamples xs) o.terms = ⟨terms, [], .ok ()⟩ :=
      Action.onEach_of_forall₂ ((mapM_eq_ok.mp hterms).imp fun _ _ => Term.takeSamples_of_ok)
    let grid : Grid α := ⟨xs, List.replicate o.resolution 0⟩
    have hwritten : Action.change (fun o : OutputVariable α =>
        .ok { o with grid := some ⟨xs, List.replicate o.resolution 0⟩ }) o =
          ⟨{ o with grid := some grid }, [], .ok ()⟩ := rfl
    rw [Action.change_of_ok hdiscretize]
    refine (Action.bind_of_quiet (Action.ask_of_ok hxs) _).trans ?_
    refine (Action.bind_of_quiet hwritten _).trans ?_
    unfold Action.within
    dsimp only
    rw [hsampled]

/-- Building a grid keeps what the variable with its grid has kept. -/
theorem moves_buildGrid {R : OutputVariable α → OutputVariable α → Prop} (hrefl : ∀ o, R o o)
    (h : ∀ o o', o.discretize = .ok o' → R o o') : (buildGrid (α := α)).Moves R := by
  rw [buildGrid_eq]
  exact Action.moves_change hrefl h

end OutputVariable

end FuzzyInference
