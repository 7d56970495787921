import FuzzyInference.Proofs.Outcomes

/-!
# Actions that succeed

When an action built from others succeeds, and in which state, said in terms of its parts.
-/

namespace FuzzyInference.Action

open List (Forall₂)

variable {σ τ ρ β γ : Type}

/-- The action succeeds in the state `s` with the answer `b`, and leaves the state `t`. -/
def Leads (act : Action σ β) (s t : σ) (b : β) : Prop := ∃ notices, act s = ⟨t, notices, .ok b⟩

theorem leads_of_answer {act : Action σ β} {s : σ} {b : β} (h : (act s).answer = .ok b) :
    act.Leads s (act s).state b := ⟨(act s).notices, by rw [← h]⟩

theorem leads_give {b b' : β} {s t : σ} : (give b).Leads s t b' ↔ t = s ∧ b' = b := by
  constructor
  · rintro ⟨notices, h⟩
    obtain ⟨hstate, -, hanswer⟩ := Outcome.mk.inj h
    exact ⟨hstate.symm, (Except.ok.inj hanswer).symm⟩
  · rintro ⟨rfl, rfl⟩
    exact ⟨[], rfl⟩

theorem leads_look {s t s' : σ} : (look : Action σ σ).Leads s t s' ↔ t = s ∧ s' = s := by
  constructor
  · rintro ⟨notices, h⟩
    obtain ⟨hstate, -, hanswer⟩ := Outcome.mk.inj h
    exact ⟨hstate.symm, (Except.ok.inj hanswer).symm⟩
  · rintro ⟨rfl, rfl⟩
    exact ⟨[], rfl⟩

theorem leads_change {f : σ → Except Fault σ} {s t : σ} :
    (change f).Leads s t () ↔ f s = .ok t := by
  constructor
  · rintro ⟨notices, h⟩
    unfold change at h
    split at h
    · rename_i s' hs
      obtain ⟨rfl, -, -⟩ := Outcome.mk.inj h
      exact hs
    · obtain ⟨-, -, hanswer⟩ := Outcome.mk.inj h
      cases hanswer
  · intro h
    exact ⟨[], change_of_ok h⟩

theorem leads_bind {act : Action σ β} {next : β → Action σ γ} {s u : σ} {c : γ} :
    (act >>= next).Leads s u c ↔ ∃ t b, act.Leads s t b ∧ (next b).Leads t u c := by
  constructor
  · rintro ⟨notices, h⟩
    rw [bind_eq] at h
    unfold andThen at h
    split at h
    · obtain ⟨-, -, hanswer⟩ := Outcome.mk.inj h
      cases hanswer
    · rename_i t first b hact
      obtain ⟨rfl, -, hanswer⟩ := Outcome.mk.inj h
      exact ⟨t, b, ⟨first, hact⟩, ⟨(next b t).notices, by rw [← hanswer]⟩⟩
  · rintro ⟨t, b, ⟨first, hact⟩, ⟨more, hnext⟩⟩
    refine ⟨first ++ more, ?_⟩
    rw [bind_eq, andThen_of_ok hact, hnext]

theorem leads_within {get : σ → τ} {set : τ → σ → σ} {act : Action τ β} {s u : σ} {b : β} :
    (within get set act).Leads s u b ↔ ∃ t, act.Leads (get s) t b ∧ u = set t s := by
  constructor
  · rintro ⟨notices, h⟩
    obtain ⟨hstate, -, hanswer⟩ := Outcome.mk.inj h
    exact ⟨_, ⟨(act (get s)).notices, by rw [← hanswer]⟩, hstate.symm⟩
  · rintro ⟨t, ⟨notices, h⟩, rfl⟩
    refine ⟨notices, ?_⟩
    unfold within
    rw [h]

theorem leads_onEach {act : Action ρ Unit} {xs ys : List ρ} :
    (onEach act).Leads xs ys () ↔ Forall₂ (fun x y => act.Leads x y ()) xs ys := by
  -- on the items; a fault on the way would be the answer
  induction xs generalizing ys with
  | nil =>
    rw [List.forall₂_nil_left_iff]
    constructor
    · rintro ⟨notices, h⟩
      exact (Outcome.mk.inj h).1.symm
    · rintro rfl
      exact ⟨[], rfl⟩
  | cons x xs ih =>
    rw [List.forall₂_cons_left_iff]
    constructor
    · rintro ⟨notices, h⟩
      unfold onEach at h
      split at h
      · obtain ⟨-, -, hanswer⟩ := Outcome.mk.inj h
        cases hanswer
      · rename_i y first hact
        obtain ⟨rfl, -, hanswer⟩ := Outcome.mk.inj h
        exact ⟨y, _, ⟨first, hact⟩, ih.mp ⟨(onEach act xs).notices, by rw [← hanswer]⟩, rfl⟩
    · rintro ⟨y, zs, ⟨first, hact⟩, hrest, rfl⟩
      obtain ⟨more, hmore⟩ := ih.mpr hrest
      refine ⟨first ++ more, ?_⟩
      unfold onEach
      rw [hact]
      dsimp only
      rw [hmore]

theorem leads_sweep_nil {act : Action (ρ × σ) Unit} {ys : List ρ} {s t : σ} :
    (sweep act).Leads ([], s) (ys, t) () ↔ ys = [] ∧ t = s := by
  constructor
  · rintro ⟨notices, h⟩
    rw [sweep] at h
    obtain ⟨hstate, -, -⟩ := Outcome.mk.inj h
    obtain ⟨hys, ht⟩ := Prod.mk.inj hstate
    exact ⟨hys.symm, ht.symm⟩
  · rintro ⟨rfl, rfl⟩
    exact ⟨[], by rw [sweep]⟩

theorem leads_sweep_cons {act : Action (ρ × σ) Unit} {x : ρ} {xs ys : List ρ} {s u : σ} :
    (sweep act).Leads (x :: xs, s) (ys, u) () ↔ ∃ y zs t, act.Leads (x, s) (y, t) () ∧
      (sweep act).Leads (xs, t) (zs, u) () ∧ ys = y :: zs := by
  constructor
  · rintro ⟨notices, h⟩
    unfold sweep at h
    split at h
    · obtain ⟨-, -, hanswer⟩ := Outcome.mk.inj h
      cases hanswer
    · rename_i y t first hact
      obtain ⟨hstate, -, hanswer⟩ := Outcome.mk.inj h
      obtain ⟨rfl, rfl⟩ := Prod.mk.inj hstate
      exact ⟨y, _, t, ⟨first, hact⟩, ⟨(sweep act (xs, t)).notices, by rw [← hanswer]⟩, rfl⟩
  · rintro ⟨y, zs, t, ⟨first, hact⟩, ⟨more, hmore⟩, rfl⟩
    refine ⟨first ++ more, ?_⟩
    unfold sweep
    rw [hact]
    dsimp only
    rw [hmore]

/-- A change of the first item that has a property, as a whole or not at all. -/
def changeFirst (found : ρ → Bool) (missing : Fault) (f : ρ → Except Fault ρ) :
    List ρ → Except Fault (List ρ)
  | [] => .error missing
  | x :: xs =>
    if found x then (f x).map (· :: xs) else (changeFirst found missing f xs).map (x :: ·)

theorem leads_changeNoting {f : σ → Except Fault (σ × List Notice)} {s t : σ} :
    (changeNoting f).Leads s t () ↔ ∃ notices, f s = .ok (t, notices) := by
  constructor
  · rintro ⟨notices, h⟩
    unfold changeNoting at h
    split at h
    · rename_i s' more hs
      obtain ⟨rfl, -, -⟩ := Outcome.mk.inj h
      exact ⟨more, hs⟩
    · obtain ⟨-, -, hanswer⟩ := Outcome.mk.inj h
      cases hanswer
  · rintro ⟨notices, h⟩
    refine ⟨notices, ?_⟩
    unfold changeNoting
    rw [h]

theorem leads_ask {f : σ → Except Fault β} {s t : σ} {b : β} :
    (ask f).Leads s t b ↔ t = s ∧ f s = .ok b := by
  constructor
  · rintro ⟨notices, h⟩
    obtain ⟨hstate, -, hanswer⟩ := Outcome.mk.inj h
    exact ⟨hstate.symm, hanswer⟩
  · rintro ⟨rfl, h⟩
    exact ⟨[], by rw [ask, h]⟩

theorem Leads.state_eq {act : Action σ β} {s t : σ} {b : β} (h : act.Leads s t b) :
    (act s).state = t := by
  obtain ⟨notices, hrun⟩ := h
  rw [hrun]

theorem leads_forEach_nil {act : β → Action σ Unit} {s t : σ} :
    (forEach [] act).Leads s t () ↔ t = s := by
  rw [forEach, leads_give]
  exact and_iff_left rfl

theorem leads_forEach_cons {act : β → Action σ Unit} {b : β} {items : List β} {s u : σ} :
    (forEach (b :: items) act).Leads s u () ↔
      ∃ t, (act b).Leads s t () ∧ (forEach items act).Leads t u () := by
  rw [forEach, ← bind_eq, leads_bind]
  constructor
  · rintro ⟨t, _, hfirst, hrest⟩
    exact ⟨t, hfirst, hrest⟩
  · rintro ⟨t, hfirst, hrest⟩
    exact ⟨t, (), hfirst, hrest⟩

theorem leads_forEach_append {act : β → Action σ Unit} {xs ys : List β} {s u : σ} :
    (forEach (xs ++ ys) act).Leads s u () ↔
      ∃ t, (forEach xs act).Leads s t () ∧ (forEach ys act).Leads t u () := by
  induction xs generalizing s with
  | nil => simp [leads_forEach_nil]
  | cons x xs ih =>
    rw [List.cons_append, leads_forEach_cons]
    constructor
    · rintro ⟨r, hfirst, hrest⟩
      obtain ⟨t, hxs, hys⟩ := ih.mp hrest
      exact ⟨t, leads_forEach_cons.mpr ⟨r, hfirst, hxs⟩, hys⟩
    · rintro ⟨t, hxs, hys⟩
      obtain ⟨r, hfirst, hrest⟩ := leads_forEach_cons.mp hxs
      exact ⟨r, hfirst, ih.mpr ⟨t, hrest, hys⟩⟩

theorem forEach_map (items : List γ) (f : γ → β) (act : β → Action σ Unit) :
    forEach (items.map f) act = forEach items fun c => act (f c) := by
  induction items with
  | nil => rfl
  | cons c items ih => rw [List.map_cons, forEach, forEach, ih]

-- An action that amounts to a change, on the first item that has the property.
theorem leads_onFirst {found : ρ → Bool} {missing : Fault} {act : Action ρ Unit}
    {f : ρ → Except Fault ρ} (hact : ∀ x y, act.Leads x y () ↔ f x = .ok y) {xs ys : List ρ} :
    (onFirst found missing act).Leads xs ys () ↔ changeFirst found missing f xs = .ok ys := by
  -- on the items before the first that has the property
  induction xs generalizing ys with
  | nil =>
    constructor
    · rintro ⟨notices, h⟩
      obtain ⟨-, -, hanswer⟩ := Outcome.mk.inj h
      cases hanswer
    · intro h
      cases h
  | cons x xs ih =>
    rw [changeFirst]
    by_cases hx : found x = true
    · rw [if_pos hx, map_eq_ok]
      constructor
      · rintro ⟨notices, h⟩
        rw [onFirst, if_pos hx] at h
        obtain ⟨hstate, -, hanswer⟩ := Outcome.mk.inj h
        exact ⟨_, (hact x _).mp ⟨(act x).notices, by rw [← hanswer]⟩, hstate⟩
      · rintro ⟨y, hy, rfl⟩
        obtain ⟨notices, h⟩ := (hact x y).mpr hy
        refine ⟨notices, ?_⟩
        rw [onFirst, if_pos hx, h]
    · rw [if_neg hx, map_eq_ok]
      constructor
      · rintro ⟨notices, h⟩
        rw [onFirst, if_neg hx] at h
        obtain ⟨hstate, -, hanswer⟩ := Outcome.mk.inj h
        exact ⟨_, ih.mp ⟨(onFirst found missing act xs).notices, by rw [← hanswer]⟩, hstate⟩
      · rintro ⟨zs, hzs, rfl⟩
        obtain ⟨notices, h⟩ := ih.mpr hzs
        refine ⟨notices, ?_⟩
        rw [onFirst, if_neg hx, h]

end FuzzyInference.Action
