import FuzzyInference.Condition
import FuzzyInference.Proofs.Leads

/-!
# Changes that are made again

A change that makes no difference once it has been made, whatever else has been changed since, may
be left out where it comes again.
-/

namespace FuzzyInference.Action

variable {σ ρ β : Type}

/-! ## The first item that has a property -/

section First

variable {found found' : ρ → Bool} {missing missing' : Fault} {f g : ρ → Except Fault ρ}
  {xs ys : List ρ}

theorem onFirst_change (found : ρ → Bool) (missing : Fault) (f : ρ → Except Fault ρ)
    (xs : List ρ) :
    onFirst found missing (change f) xs = change (changeFirst found missing f) xs := by
  induction xs with
  | nil => rfl
  | cons x xs ih =>
    by_cases hx : found x = true
    · rw [onFirst, if_pos hx]
      unfold change
      rw [changeFirst, if_pos hx]
      cases f x <;> rfl
    · rw [onFirst, if_neg hx, ih]
      unfold change
      rw [changeFirst, if_neg hx]
      cases changeFirst found missing f xs <;> rfl

theorem changeFirst_idem (hf : ∀ x y, f x = .ok y → found y = found x ∧ f y = .ok y)
    (h : changeFirst found missing f xs = .ok ys) : changeFirst found missing f ys = .ok ys := by
  induction xs generalizing ys with
  | nil => cases h
  | cons x xs ih =>
    rw [changeFirst] at h
    by_cases hx : found x = true
    · rw [if_pos hx] at h
      obtain ⟨y, hy, rfl⟩ := map_eq_ok.mp h
      obtain ⟨hfound, hagain⟩ := hf x y hy
      rw [changeFirst, if_pos (hfound.trans hx), hagain]
      rfl
    · rw [if_neg hx] at h
      obtain ⟨zs, hzs, rfl⟩ := map_eq_ok.mp h
      rw [changeFirst, if_neg hx, ih hzs]
      rfl

-- Another change may be one of the same item.
theorem changeFirst_kept
    (hg : ∀ x y, g x = .ok y → found y = found x ∧ (f x = .ok x → f y = .ok y))
    (hsame : changeFirst found missing f xs = .ok xs)
    (h : changeFirst found' missing' g xs = .ok ys) : changeFirst found missing f ys = .ok ys := by
  induction xs generalizing ys with
  | nil => cases h
  | cons x xs ih =>
    rw [changeFirst] at h hsame
    by_cases hx : found x = true
    · rw [if_pos hx] at hsame
      obtain ⟨x', hfx, hcons⟩ := map_eq_ok.mp hsame
      obtain rfl := (List.cons.inj hcons).1
      by_cases hx' : found' x' = true
      · rw [if_pos hx'] at h
        obtain ⟨y, hy, rfl⟩ := map_eq_ok.mp h
        obtain ⟨hfound, hkept⟩ := hg x' y hy
        rw [changeFirst, if_pos (hfound.trans hx), hkept hfx]
        rfl
      · rw [if_neg hx'] at h
        obtain ⟨zs, -, rfl⟩ := map_eq_ok.mp h
        rw [changeFirst, if_pos hx, hfx]
        rfl
    · rw [if_neg hx] at hsame
      obtain ⟨xs', hrest, hcons⟩ := map_eq_ok.mp hsame
      obtain rfl := (List.cons.inj hcons).2
      by_cases hx' : found' x = true
      · rw [if_pos hx'] at h
        obtain ⟨y, hy, rfl⟩ := map_eq_ok.mp h
        rw [changeFirst, if_neg (by rwa [(hg x y hy).1]), hrest]
        rfl
      · rw [if_neg hx'] at h
        obtain ⟨zs, hzs, rfl⟩ := map_eq_ok.mp h
        rw [changeFirst, if_neg hx, ih hrest hzs]
        rfl

end First

/-! ## Repeated items -/

variable {step : β → σ → Except Fault σ} {items : List β} {b : β} {s t : σ}

/-- Changes that make no difference when they are made again, be it at once or after others. -/
structure Absorbing (step : β → σ → Except Fault σ) : Prop where
  idem {b : β} {s t : σ} : step b s = .ok t → step b t = .ok t
  kept {b c : β} {s t : σ} : step b s = .ok s → step c s = .ok t → step b t = .ok t

theorem Absorbing.kept_of_leads (h : Absorbing step) (hsame : step b s = .ok s)
    (hleads : (forEach items fun c => change (step c)).Leads s t ()) : step b t = .ok t := by
  induction items generalizing s with
  | nil => rwa [leads_forEach_nil.mp hleads]
  | cons c items ih =>
    obtain ⟨u, hc, hrest⟩ := leads_forEach_cons.mp hleads
    exact ih (h.kept hsame (leads_change.mp hc)) hrest

theorem Absorbing.of_leads (h : Absorbing step)
    (hleads : (forEach items fun c => change (step c)).Leads s t ()) (hb : b ∈ items) :
    step b t = .ok t := by
  induction items generalizing s with
  | nil => cases hb
  | cons c items ih =>
    obtain ⟨u, hc, hrest⟩ := leads_forEach_cons.mp hleads
    rcases List.mem_cons.mp hb with rfl | hb
    · exact h.kept_of_leads (h.idem (leads_change.mp hc)) hrest
    · exact ih hrest hb

-- A change that makes no difference can be left out.
theorem forEach_cons_of_same (hsame : step b s = .ok s) :
    forEach (b :: items) (fun c => change (step c)) s =
      forEach items (fun c => change (step c)) s := by
  rw [forEach, andThen_of_ok (change_of_ok hsame)]
  rfl

theorem forEach_foldl {same : β → β → Bool} (h : Absorbing step) {kept : List β}
    (hsame : ∀ b ∈ kept ++ items, ∀ c ∈ kept ++ items, same b c = true → step b = step c) (s : σ) :
    forEach (items.foldl (fun kept b => if kept.any (same · b) then kept else kept ++ [b]) kept)
        (fun b => change (step b)) s =
      forEach (kept ++ items) (fun b => change (step b)) s := by
  induction items generalizing kept with
  | nil => rw [List.foldl_nil, List.append_nil]
  | cons b items ih =>
    rw [List.foldl_cons]
    split
    · rename_i hany
      obtain ⟨c, hc, hcb⟩ := List.any_eq_true.mp hany
      have hmem : ∀ d ∈ kept ++ items, d ∈ kept ++ b :: items := by
        intro d hd
        rcases List.mem_append.mp hd with hd | hd
        · exact List.mem_append_left _ hd
        · exact List.mem_append_right _ (List.mem_cons_of_mem b hd)
      rw [ih fun d hd e he => hsame d (hmem d hd) e (hmem e he), forEach_append,
        forEach_append]
      -- after the kept items the further one makes no difference
      unfold andThen
      cases hkept : forEach kept (fun b => change (step b)) s with
      | mk t notices answer =>
        cases answer with
        | error f => rfl
        | ok _ =>
          have hb : step b t = .ok t := by
            rw [← hsame c (by simp [hc]) b (by simp) hcb]
            exact h.of_leads ⟨notices, hkept⟩ hc
          dsimp only
          rw [forEach_cons_of_same hb]
    · have hsplit : kept ++ b :: items = kept ++ [b] ++ items := by simp
      rw [hsplit] at hsame ⊢
      exact ih hsame

/-- Items that are repeated need not be gone through again. -/
theorem forEach_firstOfEach {same : β → β → Bool} (h : Absorbing step)
    (hsame : ∀ b ∈ items, ∀ c ∈ items, same b c = true → step b = step c) (s : σ) :
    forEach (firstOfEach same items) (fun b => change (step b)) s =
      forEach items (fun b => change (step b)) s :=
  forEach_foldl h hsame s

end FuzzyInference.Action
