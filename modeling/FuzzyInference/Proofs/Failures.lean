import FuzzyInference.Proofs.Leads

/-!
# Actions that fail

With which fault an action built from others ends, said in terms of its parts.  What comes before
the part that fails has succeeded.
-/

namespace FuzzyInference.Action

variable {σ τ ρ β γ : Type}

/-- Started in the state `s`, the action ends with the fault `f`. -/
def Fails (act : Action σ β) (s : σ) (f : Fault) : Prop := (act s).answer = .error f

theorem leads_or_fails (act : Action σ β) (s : σ) :
    (∃ t b, act.Leads s t b) ∨ ∃ f, act.Fails s f := by
  cases h : (act s).answer with
  | ok b => exact .inl ⟨_, b, leads_of_answer h⟩
  | error f => exact .inr ⟨f, h⟩

theorem Leads.not_fails {act : Action σ β} {s t : σ} {b : β} {f : Fault} (h : act.Leads s t b) :
    ¬ act.Fails s f := by
  obtain ⟨notices, hrun⟩ := h
  unfold Fails
  rw [hrun]
  exact fun hfault => by cases hfault

theorem fails_ask {f : σ → Except Fault β} {s : σ} {fault : Fault} :
    (ask f).Fails s fault ↔ f s = .error fault := Iff.rfl

theorem fails_change {f : σ → Except Fault σ} {s : σ} {fault : Fault} :
    (change f).Fails s fault ↔ f s = .error fault := by
  unfold Fails change
  cases f s <;> simp

theorem fails_changeNoting {f : σ → Except Fault (σ × List Notice)} {s : σ} {fault : Fault} :
    (changeNoting f).Fails s fault ↔ f s = .error fault := by
  unfold Fails changeNoting
  cases f s <;> simp

theorem fails_within {get : σ → τ} {set : τ → σ → σ} {act : Action τ β} {s : σ} {f : Fault} :
    (within get set act).Fails s f ↔ act.Fails (get s) f := Iff.rfl

theorem fails_bind {act : Action σ β} {next : β → Action σ γ} {s : σ} {f : Fault} :
    (act >>= next).Fails s f ↔
      act.Fails s f ∨ ∃ t b, act.Leads s t b ∧ (next b).Fails t f := by
  unfold Fails
  rw [bind_eq]
  unfold andThen
  cases hact : act s with
  | mk t notices answer =>
    cases answer with
    | error f' =>
      dsimp only
      -- the same fault, as an end of either action
      constructor
      · intro h
        exact .inl (congrArg _ (Except.error.inj h))
      · rintro (h | ⟨t', b, hleads, -⟩)
        · exact congrArg _ (Except.error.inj h)
        · exact absurd (congrArg Outcome.answer hact) hleads.not_fails
    | ok b =>
      constructor
      · exact fun h => .inr ⟨t, b, ⟨notices, hact⟩, h⟩
      · rintro (h | ⟨t', b', ⟨notices', hrun⟩, h⟩)
        · cases h
        · obtain ⟨rfl, -, hb⟩ := Outcome.mk.inj (hact.symm.trans hrun)
          obtain rfl := Except.ok.inj hb
          exact h

-- What is left of two actions when the first one fails.
theorem state_bind_of_fails {act : Action σ β} {s : σ} {f : Fault} (h : act.Fails s f)
    (next : β → Action σ γ) : ((act >>= next) s).state = (act s).state := by
  unfold Fails at h
  rw [bind_eq]
  unfold andThen
  split
  · rename_i hact
    rw [hact]
  · rename_i hact
    rw [hact] at h
    cases h

theorem state_bind_of_leads {act : Action σ β} {s t : σ} {b : β} (h : act.Leads s t b)
    (next : β → Action σ γ) : ((act >>= next) s).state = (next b t).state := by
  obtain ⟨notices, hact⟩ := h
  rw [bind_eq, andThen_of_ok hact]

/-- The items before the one that fails have been gone through. -/
theorem fails_forEach {act : β → Action σ Unit} {items : List β} {s : σ} {f : Fault} :
    (forEach items act).Fails s f ↔ ∃ before b after t, items = before ++ b :: after ∧
      (forEach before act).Leads s t () ∧ (act b).Fails t f := by
  induction items generalizing s with
  | nil =>
    constructor
    · intro h
      cases h
    · rintro ⟨before, b, after, t, hitems, -⟩
      simp at hitems
  | cons b items ih =>
    rw [forEach, ← bind_eq, fails_bind]
    constructor
    · rintro (h | ⟨t, _, hfirst, hrest⟩)
      · exact ⟨[], b, items, s, rfl, leads_forEach_nil.mpr rfl, h⟩
      · obtain ⟨before, d, after, u, rfl, hbefore, hd⟩ := ih.mp hrest
        exact ⟨b :: before, d, after, u, rfl, leads_forEach_cons.mpr ⟨t, hfirst, hbefore⟩, hd⟩
    · rintro ⟨before, d, after, u, hitems, hbefore, hd⟩
      cases before with
      | nil =>
        obtain ⟨rfl, rfl⟩ := List.cons.inj hitems
        obtain rfl := leads_forEach_nil.mp hbefore
        exact .inl hd
      | cons b' before =>
        obtain ⟨rfl, rfl⟩ := List.cons.inj hitems
        obtain ⟨t, hfirst, hrest⟩ := leads_forEach_cons.mp hbefore
        exact .inr ⟨t, (), hfirst, ih.mpr ⟨before, d, after, u, rfl, hrest, hd⟩⟩

theorem exists_of_fails_onEach {act : Action ρ Unit} {items : List ρ} {f : Fault}
    (h : (onEach act).Fails items f) : ∃ x ∈ items, act.Fails x f := by
  induction items with
  | nil => cases h
  | cons x rest ih =>
    unfold Fails onEach at h
    split at h
    · rename_i y notices fault hact
      exact ⟨x, List.mem_cons_self, by unfold Fails; rw [hact]; exact h⟩
    · obtain ⟨y, hy, hfails⟩ := ih h
      exact ⟨y, List.mem_cons_of_mem x hy, hfails⟩

theorem fails_onFirst {found : ρ → Bool} {missing : Fault} {act : Action ρ β} {items : List ρ}
    {f : Fault} : (onFirst found missing act).Fails items f ↔
      (items.find? found = none ∧ f = missing) ∨
        ∃ x, items.find? found = some x ∧ act.Fails x f := by
  induction items with
  | nil => simp [Fails, onFirst, eq_comm]
  | cons x rest ih =>
    unfold Fails at ih ⊢
    unfold onFirst
    cases hx : found x with
    | true => simp [hx]
    | false => simpa [hx] using ih

/-- The item that fails does so in a state that the items before it have led to. -/
theorem fails_sweep {act : Action (ρ × σ) Unit} {items : List ρ} {s : σ} {f : Fault} :
    (sweep act).Fails (items, s) f ↔ ∃ before x after ys t, items = before ++ x :: after ∧
      (sweep act).Leads (before, s) (ys, t) () ∧ act.Fails (x, t) f := by
  induction items generalizing s with
  | nil =>
    constructor
    · intro h
      rw [Fails, sweep] at h
      cases h
    · rintro ⟨before, x, after, ys, t, hitems, -⟩
      simp at hitems
  | cons x rest ih =>
    constructor
    · intro h
      unfold Fails sweep at h
      split at h
      · rename_i y t notices fault hact
        refine ⟨[], x, rest, [], s, rfl, leads_sweep_nil.mpr ⟨rfl, rfl⟩, ?_⟩
        unfold Fails
        rw [hact]
        exact h
      · rename_i y t notices hact
        obtain ⟨before, z, after, ys, u, rfl, hbefore, hz⟩ := ih.mp h
        exact ⟨x :: before, z, after, y :: ys, u, rfl,
          leads_sweep_cons.mpr ⟨y, ys, t, ⟨notices, hact⟩, hbefore, rfl⟩, hz⟩
    · rintro ⟨before, z, after, ys, u, hitems, hbefore, hz⟩
      unfold Fails sweep
      cases before with
      | nil =>
        obtain ⟨rfl, rfl⟩ := List.cons.inj hitems
        obtain ⟨rfl, rfl⟩ := leads_sweep_nil.mp hbefore
        unfold Fails at hz
        split
        · rename_i hact
          rw [hact] at hz
          exact hz
        · rename_i hact
          rw [hact] at hz
          cases hz
      | cons x' before =>
        obtain ⟨rfl, rfl⟩ := List.cons.inj hitems
        obtain ⟨y, zs, t, ⟨notices, hact⟩, hrest, rfl⟩ := leads_sweep_cons.mp hbefore
        rw [hact]
        exact ih.mpr ⟨before, z, after, zs, u, rfl, hrest, hz⟩

end FuzzyInference.Action
