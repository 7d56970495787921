import FuzzyInference.Action
import Mathlib.Data.List.Forall2

/-!
# Outcomes of fallible steps

How a result of several steps is taken apart into the results of each of them, and what an action
on a list or on a part of a state leaves behind.
-/

namespace FuzzyInference

section Results

variable {ε β γ : Type}

theorem bind_eq_ok {x : Except ε β} {f : β → Except ε γ} {c : γ} :
    x >>= f = .ok c ↔ ∃ b, x = .ok b ∧ f b = .ok c := by
  cases x with
  | error e => simp [bind, Except.bind]
  | ok b => simp [bind, Except.bind]

theorem bind_eq_error {x : Except ε β} {f : β → Except ε γ} {e : ε} :
    x >>= f = .error e ↔ x = .error e ∨ ∃ b, x = .ok b ∧ f b = .error e := by
  cases x with
  | error e => simp [bind, Except.bind]
  | ok b => simp [bind, Except.bind]

theorem exists_ok_of_toOption {x : Except ε β} (h : x.toOption.isSome = true) :
    ∃ b, x = .ok b := by
  cases x with
  | error e => cases h
  | ok b => exact ⟨b, rfl⟩

theorem map_bind {δ : Type} (x : Except ε β) (f : β → γ) (g : γ → Except ε δ) :
    x.map f >>= g = x >>= fun b => g (f b) := by
  cases x <;> rfl

theorem map_eq_ok {x : Except ε β} {f : β → γ} {c : γ} :
    x.map f = .ok c ↔ ∃ b, x = .ok b ∧ f b = c := by
  cases x <;> simp [Except.map]

theorem mapError_eq_ok {ε' : Type} {x : Except ε β} {f : ε → ε'} {b : β} :
    x.mapError f = .ok b ↔ x = .ok b := by
  cases x <;> simp [Except.mapError]

theorem mapError_eq_error {ε' : Type} {x : Except ε β} {f : ε → ε'} {e' : ε'} :
    x.mapError f = .error e' ↔ ∃ e, x = .error e ∧ f e = e' := by
  cases x <;> simp [Except.mapError]

theorem mapError_bind {ε' : Type} (x : Except ε β) (f : β → Except ε γ) (g : ε → ε') :
    (x >>= f).mapError g = x.mapError g >>= fun b => (f b).mapError g := by
  cases x <;> rfl

theorem forM_eq_ok {f : β → Except ε Unit} {items : List β} :
    items.forM f = .ok () ↔ ∀ b ∈ items, f b = .ok () := by
  induction items with
  | nil => simp [List.forM_eq_forM, pure, Except.pure]
  | cons b rest ih =>
    rw [List.forM_eq_forM] at ih ⊢
    rw [List.forM_cons, bind_eq_ok, List.forall_mem_cons, ← ih]
    exact ⟨fun ⟨_, hb, hrest⟩ => ⟨hb, hrest⟩, fun ⟨hb, hrest⟩ => ⟨(), hb, hrest⟩⟩

/-- A pass over a list fails with the fault of the first item that has one. -/
theorem forM_eq_error {f : β → Except ε Unit} {items : List β} {e : ε} :
    items.forM f = .error e ↔ ∃ before b after, items = before ++ b :: after ∧
      (∀ d ∈ before, f d = .ok ()) ∧ f b = .error e := by
  constructor
  · intro h
    induction items with
    | nil => simp [List.forM_eq_forM, pure, Except.pure] at h
    | cons b rest ih =>
      rw [List.forM_eq_forM] at ih h
      rw [List.forM_cons, bind_eq_error] at h
      rcases h with hb | ⟨_, hb, hrest⟩
      · exact ⟨[], b, rest, rfl, fun _ hd => absurd hd List.not_mem_nil, hb⟩
      · obtain ⟨before, d, after, rfl, hbefore, hd⟩ := ih hrest
        exact ⟨b :: before, d, after, rfl, List.forall_mem_cons.mpr ⟨hb, hbefore⟩, hd⟩
  · rintro ⟨before, b, after, rfl, hbefore, hb⟩
    induction before with
    | nil => exact bind_eq_error.mpr (.inl hb)
    | cons d before ih =>
      obtain ⟨hd, hbefore⟩ := List.forall_mem_cons.mp hbefore
      exact bind_eq_error.mpr (.inr ⟨(), hd, ih hbefore⟩)

theorem exists_of_forM_eq_error {f : β → Except ε Unit} {items : List β} {e : ε}
    (h : items.forM f = .error e) : ∃ b ∈ items, f b = .error e := by
  obtain ⟨before, b, after, rfl, -, hb⟩ := forM_eq_error.mp h
  exact ⟨b, List.mem_append_right before List.mem_cons_self, hb⟩

theorem forM_map_eq (items : List β) (f : β → γ) (g : γ → Except ε Unit) :
    (items.map f).forM g = items.forM fun b => g (f b) := by
  rw [List.forM_eq_forM, List.forM_eq_forM, List.forM_map]

theorem mapM_eq_ok {f : β → Except ε γ} {items : List β} {results : List γ} :
    items.mapM f = .ok results ↔ List.Forall₂ (fun b c => f b = .ok c) items results := by
  induction items generalizing results with
  | nil =>
    rw [List.mapM_nil, List.forall₂_nil_left_iff]
    exact ⟨fun h => (Except.ok.inj h).symm, fun h => congrArg _ h.symm⟩
  | cons b rest ih =>
    rw [List.mapM_cons, List.forall₂_cons_left_iff, bind_eq_ok]
    constructor
    · rintro ⟨c, hc, h⟩
      obtain ⟨cs, hcs, h⟩ := bind_eq_ok.mp h
      exact ⟨c, cs, hc, ih.mp hcs, (Except.ok.inj h).symm⟩
    · rintro ⟨c, cs, hc, hcs, rfl⟩
      exact ⟨c, hc, bind_eq_ok.mpr ⟨cs, ih.mpr hcs, rfl⟩⟩

theorem mapM_congr {f g : β → Except ε γ} {items : List β} (h : ∀ b ∈ items, f b = g b) :
    items.mapM f = items.mapM g := by
  induction items with
  | nil => rfl
  | cons b items ih =>
    obtain ⟨hb, hrest⟩ := List.forall_mem_cons.mp h
    rw [List.mapM_cons, List.mapM_cons, hb, ih hrest]

theorem mem_of_mapM_eq_ok {f : β → Except ε γ} {items : List β} {results : List γ}
    (h : items.mapM f = .ok results) {c : γ} (hc : c ∈ results) : ∃ b ∈ items, f b = .ok c := by
  rw [mapM_eq_ok] at h
  induction h with
  | nil => cases hc
  | @cons b d rest results hb _ ih =>
    rcases List.mem_cons.mp hc with rfl | hc
    · exact ⟨b, by simp, hb⟩
    · obtain ⟨e, he, hec⟩ := ih hc
      exact ⟨e, by simp [he], hec⟩

theorem exists_mem_of_mapM_eq_ok {f : β → Except ε γ} {items : List β} {results : List γ}
    (h : items.mapM f = .ok results) {b : β} (hb : b ∈ items) : ∃ c ∈ results, f b = .ok c := by
  rw [mapM_eq_ok] at h
  induction h with
  | nil => cases hb
  | @cons a c rest results hc _ ih =>
    rcases List.mem_cons.mp hb with rfl | hb
    · exact ⟨c, by simp, hc⟩
    · obtain ⟨d, hd, hbd⟩ := ih hb
      exact ⟨d, by simp [hd], hbd⟩

theorem getElem?_of_mapM {f : β → Except ε γ} {items : List β} {results : List γ}
    (h : items.mapM f = .ok results) {j : Nat} {c : γ} (hc : results[j]? = some c) :
    ∃ b, items[j]? = some b ∧ f b = .ok c := by
  rw [mapM_eq_ok] at h
  induction h generalizing j with
  | nil => cases hc
  | cons hb _ ih =>
    cases j with
    | zero => exact ⟨_, rfl, Option.some.inj hc ▸ hb⟩
    | succ j => exact ih hc

theorem map_toOption_of_mapM {f : β → Except ε γ} {items : List β} {results : List γ}
    (h : items.mapM f = .ok results) : items.map (fun b => (f b).toOption) = results.map some := by
  rw [mapM_eq_ok] at h
  induction h with
  | nil => rfl
  | cons hb _ ih => rw [List.map_cons, List.map_cons, ih, hb]; rfl

theorem exists_mapM_eq_ok {f : β → Except ε γ} {items : List β} :
    (∃ results, items.mapM f = .ok results) ↔ ∀ b ∈ items, ∃ c, f b = .ok c := by
  simp only [mapM_eq_ok]
  induction items with
  | nil => simp
  | cons b rest ih =>
    rw [List.forall_mem_cons, ← ih]
    constructor
    · rintro ⟨_, h⟩
      obtain ⟨c, cs, hc, hcs, -⟩ := List.forall₂_cons_left_iff.mp h
      exact ⟨⟨c, hc⟩, ⟨cs, hcs⟩⟩
    · rintro ⟨⟨c, hc⟩, ⟨cs, hcs⟩⟩
      exact ⟨c :: cs, .cons hc hcs⟩

end Results

namespace Action

variable {σ τ ρ β γ : Type}

theorem bind_eq (act : Action σ β) (next : β → Action σ γ) : act >>= next = andThen act next := rfl

theorem andThen_of_ok {act : Action σ β} {s s' : σ} {notices : List Notice} {b : β}
    (h : act s = ⟨s', notices, .ok b⟩) (next : β → Action σ γ) :
    andThen act next s =
      ⟨(next b s').state, notices ++ (next b s').notices, (next b s').answer⟩ := by
  unfold andThen
  rw [h]

theorem bind_of_quiet {act : Action σ β} {s s' : σ} {b : β} (h : act s = ⟨s', [], .ok b⟩)
    (next : β → Action σ γ) : (act >>= next) s = next b s' := by
  rw [bind_eq, andThen_of_ok h]
  rfl

theorem bind_of_error {act : Action σ β} {s s' : σ} {notices : List Notice} {f : Fault}
    (h : act s = ⟨s', notices, .error f⟩) (next : β → Action σ γ) :
    (act >>= next) s = ⟨s', notices, .error f⟩ := by
  rw [bind_eq]
  unfold andThen
  rw [h]

theorem ask_of_ok {f : σ → Except Fault β} {s : σ} {b : β} (h : f s = .ok b) :
    ask f s = ⟨s, [], .ok b⟩ := by
  unfold ask
  rw [h]

theorem ask_of_error {f : σ → Except Fault β} {s : σ} {fault : Fault} (h : f s = .error fault) :
    ask f s = ⟨s, [], .error fault⟩ := by
  unfold ask
  rw [h]

theorem change_of_ok {f : σ → Except Fault σ} {s s' : σ} (h : f s = .ok s') :
    change f s = ⟨s', [], .ok ()⟩ := by
  unfold change
  rw [h]

theorem change_of_error {f : σ → Except Fault σ} {s : σ} {fault : Fault}
    (h : f s = .error fault) : change f s = ⟨s, [], .error fault⟩ := by
  unfold change
  rw [h]

-- Changes that all succeed, one after the other.
theorem forEach_change_of_ok {f : β → σ → Except Fault σ} {items : List β} {s s' : σ}
    (h : items.foldlM (fun s b => f b s) s = .ok s') :
    forEach items (fun b => change (f b)) s = ⟨s', [], .ok ()⟩ := by
  induction items generalizing s with
  | nil =>
    obtain rfl : s = s' := Except.ok.inj h
    rfl
  | cons b rest ih =>
    rw [List.foldlM_cons, bind_eq_ok] at h
    obtain ⟨s₁, hfirst, hrest⟩ := h
    rw [forEach, andThen_of_ok (change_of_ok hfirst), ih hrest]
    rfl

-- One question after the other, up to the first that has no answer.
theorem forEach_ask (items : List β) (f : β → σ → Except Fault Unit) (s : σ) :
    forEach items (fun b => ask (f b)) s = ⟨s, [], items.forM fun b => f b s⟩ := by
  induction items with
  | nil => rfl
  | cons b rest ih =>
    rw [forEach, ← bind_eq, List.forM_eq_forM, List.forM_cons]
    cases hb : f b s with
    | error fault => exact bind_of_error (ask_of_error hb) _
    | ok u => exact (bind_of_quiet (ask_of_ok hb) _).trans ih

theorem andThen_assoc {δ : Type} (act : Action σ β) (next : β → Action σ γ)
    (last : γ → Action σ δ) :
    (act.andThen next).andThen last = act.andThen fun b => (next b).andThen last := by
  funext s
  unfold andThen
  generalize act s = o
  obtain ⟨t, notices, answer⟩ := o
  cases answer with
  | error f => rfl
  | ok b =>
    dsimp only
    generalize next b t = o'
    obtain ⟨u, more, answer'⟩ := o'
    cases answer' with
    | error f => rfl
    | ok c => simp only [List.append_assoc]

theorem forEach_append (xs ys : List β) (act : β → Action σ Unit) :
    forEach (xs ++ ys) act = andThen (forEach xs act) fun _ => forEach ys act := by
  induction xs with
  | nil => rfl
  | cons x xs ih => rw [List.cons_append, forEach, forEach, andThen_assoc, ih]

theorem forEach_append_of_ok {act : β → Action σ Unit} {xs ys : List β} {s t u : σ}
    {notices more : List Notice} (hx : forEach xs act s = ⟨t, notices, .ok ()⟩)
    (hy : forEach ys act t = ⟨u, more, .ok ()⟩) :
    forEach (xs ++ ys) act s = ⟨u, notices ++ more, .ok ()⟩ := by
  rw [forEach_append, andThen_of_ok hx, hy]

theorem answer_collect_cons (act : β → Action σ γ) (b : β) (rest : List β) (s : σ) :
    (collect (b :: rest) act s).answer =
      (act b s).answer >>= fun c => (collect rest act (act b s).state).answer.map (c :: ·) := by
  rw [collect]
  unfold andThen
  cases act b s with
  | mk t notices answer =>
    cases answer with
    | error f => rfl
    | ok c =>
      dsimp only
      cases collect rest act t with
      | mk u more results => cases results <;> rfl

/-! ## Relations along actions -/

/-- The action leads from every state to one that stands in the relation `R` to it. -/
def Moves (R : σ → σ → Prop) (act : Action σ β) : Prop := ∀ s, R s (act s).state

theorem Moves.mono {R S : σ → σ → Prop} {act : Action σ β} (h : Moves R act)
    (himp : ∀ s s', R s s' → S s s') : Moves S act := fun s => himp _ _ (h s)

section Relation

variable {R : σ → σ → Prop}

theorem moves_ask (hrefl : ∀ s, R s s) (f : σ → Except Fault β) : Moves R (ask f) :=
  fun s => hrefl s

theorem moves_change (hrefl : ∀ s, R s s) {f : σ → Except Fault σ}
    (h : ∀ s s', f s = .ok s' → R s s') : Moves R (change f) := by
  intro s
  unfold change
  cases hf : f s with
  | error e => exact hrefl s
  | ok s' => exact h s s' hf

-- A change that may fail before it computes the new state.
theorem moves_change_map (hrefl : ∀ s, R s s) {x : σ → Except Fault β} {g : σ → β → σ}
    (h : ∀ s b, R s (g s b)) : Moves R (change fun s => (x s).map (g s)) := by
  refine moves_change hrefl fun s s' hs => ?_
  obtain ⟨b, -, rfl⟩ := map_eq_ok.mp hs
  exact h s b

theorem moves_changeNoting (hrefl : ∀ s, R s s) {f : σ → Except Fault (σ × List Notice)}
    (h : ∀ s s' notices, f s = .ok (s', notices) → R s s') : Moves R (changeNoting f) := by
  intro s
  unfold changeNoting
  cases hf : f s with
  | error e => exact hrefl s
  | ok p => exact h s p.1 p.2 hf

theorem moves_bind (htrans : ∀ s t u, R s t → R t u → R s u) {act : Action σ β}
    {next : β → Action σ γ} (hact : Moves R act) (hnext : ∀ b, Moves R (next b)) :
    Moves R (act >>= next) := by
  intro s
  have hs := hact s
  rw [bind_eq]
  unfold andThen
  split
  · rename_i s' notices f h
    rwa [h] at hs
  · rename_i s' notices b h
    rw [h] at hs
    exact htrans _ _ _ hs (hnext b s')

-- A property of the state that the first action brings about and the next one keeps.
theorem state_bind {P : σ → Prop} {act : Action σ β} {next : β → Action σ γ} {s : σ}
    (hact : P (act s).state) (hnext : ∀ b t, P t → P (next b t).state) :
    P ((act >>= next) s).state := by
  rw [bind_eq]
  unfold andThen
  split
  · rename_i s' notices f h
    rwa [h] at hact
  · rename_i s' notices b h
    rw [h] at hact
    exact hnext b s' hact

theorem moves_forEach (hrefl : ∀ s, R s s) (htrans : ∀ s t u, R s t → R t u → R s u)
    {items : List β} {act : β → Action σ Unit} (h : ∀ b ∈ items, Moves R (act b)) :
    Moves R (forEach items act) := by
  induction items with
  | nil => exact hrefl
  | cons b rest ih =>
    exact moves_bind htrans (h b (by simp)) fun _ => ih fun c hc => h c (by simp [hc])

theorem moves_collect (hrefl : ∀ s, R s s) (htrans : ∀ s t u, R s t → R t u → R s u)
    {act : β → Action σ γ} (h : ∀ b, Moves R (act b)) (items : List β) :
    Moves R (collect items act) := by
  induction items with
  | nil => exact hrefl
  | cons b rest ih =>
    apply moves_bind htrans (h b)
    exact fun _ => moves_bind htrans ih fun _ => hrefl

/-- Answers that depend only on what all the actions keep are given as if each came first. -/
theorem answer_collect {κ : Type} {key : σ → κ} {f : κ → β → Except Fault γ} {act : β → Action σ γ}
    (hmoves : ∀ b, Moves (fun s t => key t = key s) (act b))
    (hanswer : ∀ b s, (act b s).answer = f (key s) b) (items : List β) (s : σ) :
    (collect items act s).answer = items.mapM (f (key s)) := by
  induction items generalizing s with
  | nil => rfl
  | cons b rest ih =>
    rw [answer_collect_cons, hanswer, ih, hmoves b s, List.mapM_cons]
    cases f (key s) b with
    | error fault => rfl
    | ok c => cases rest.mapM (f (key s)) <;> rfl

theorem moves_within {R : τ → τ → Prop} {S : σ → σ → Prop} {get : σ → τ} {set : τ → σ → σ}
    {act : Action τ β} (hact : Moves R act) (hset : ∀ s t, R (get s) t → S s (set t s)) :
    Moves S (within get set act) := fun s => hset s _ (hact (get s))

end Relation

section Lists

open List (Forall₂)

variable {R : ρ → ρ → Prop}

theorem forall₂_refl (hrefl : ∀ x, R x x) (items : List ρ) : Forall₂ R items items :=
  List.forall₂_same.mpr fun x _ => hrefl x

theorem map_eq_of_forall₂ {κ : Type} {key : ρ → κ}
    (hkey : ∀ x y, R x y → key y = key x) {xs ys : List ρ} (h : Forall₂ R xs ys) :
    ys.map key = xs.map key := by
  induction h with
  | nil => rfl
  | cons hxy _ ih => rw [List.map_cons, List.map_cons, hkey _ _ hxy, ih]

theorem find?_of_forall₂ {p : ρ → Bool}
    (hp : ∀ x y, R x y → p y = p x) {xs ys : List ρ} (h : Forall₂ R xs ys) {x : ρ}
    (hx : xs.find? p = some x) : ∃ y, ys.find? p = some y ∧ R x y := by
  induction h with
  | nil => cases hx
  | @cons a b as bs hab _ ih =>
    rw [List.find?_cons] at hx ⊢
    rw [hp a b hab]
    cases ha : p a with
    | true =>
      rw [ha] at hx
      obtain rfl := Option.some.inj hx
      exact ⟨b, rfl, hab⟩
    | false =>
      rw [ha] at hx
      exact ih hx

-- What is found in a list is found, up to `g`, in one with the same `g`.
theorem find?_of_map_eq {κ : Type} {g : ρ → κ} {p : ρ → Bool}
    (hp : ∀ x y, g x = g y → p x = p y) {xs ys : List ρ} (h : ys.map g = xs.map g) {x : ρ}
    (hx : xs.find? p = some x) : ∃ y, ys.find? p = some y ∧ g y = g x := by
  have hall : Forall₂ (fun x y => g y = g x) xs ys := by
    rw [← List.forall₂_eq_eq_eq, List.forall₂_map_left_iff, List.forall₂_map_right_iff] at h
    exact h.flip
  exact find?_of_forall₂ (fun x y hxy => hp y x hxy) hall hx

theorem onFirst_append {found : ρ → Bool} {x : ρ} {before : List ρ}
    (hbefore : ∀ y ∈ before, found y = false) (hx : found x = true) (missing : Fault)
    (act : Action ρ β) (after : List ρ) :
    onFirst found missing act (before ++ x :: after) =
      ⟨before ++ (act x).state :: after, (act x).notices, (act x).answer⟩ := by
  induction before with
  | nil =>
    rw [List.nil_append, onFirst, if_pos hx]
    rfl
  | cons y before ih =>
    obtain ⟨hy, hrest⟩ := List.forall_mem_cons.mp hbefore
    rw [List.cons_append, onFirst, if_neg (by simp [hy]), ih hrest]
    rfl

theorem moves_onFirst (hrefl : ∀ x, R x x) {found : ρ → Bool} {missing : Fault}
    {act : Action ρ β} (hact : Moves R act) : Moves (Forall₂ R) (onFirst found missing act) := by
  intro items
  induction items with
  | nil => exact .nil
  | cons x rest ih =>
    unfold onFirst
    split
    · exact .cons (hact x) (forall₂_refl hrefl rest)
    · exact .cons (hrefl x) ih

theorem moves_onEach (hrefl : ∀ x, R x x) {act : Action ρ Unit} (hact : Moves R act) :
    Moves (Forall₂ R) (onEach act) := by
  intro items
  induction items with
  | nil => exact .nil
  | cons x rest ih =>
    have hx := hact x
    unfold onEach
    split
    · rename_i h
      rw [h] at hx
      exact .cons hx (forall₂_refl hrefl rest)
    · rename_i h
      rw [h] at hx
      exact .cons hx ih

-- Actions on the items of a list keep what they keep of each item.
section Keys

variable {κ : Type} {g : ρ → κ}

theorem moves_onFirst_map {found : ρ → Bool} {missing : Fault} {act : Action ρ β}
    (hact : Moves (fun x y => g y = g x) act) :
    Moves (fun xs ys => ys.map g = xs.map g) (onFirst found missing act) :=
  (moves_onFirst (R := fun x y => g y = g x) (fun _ => rfl) hact).mono
    fun _ _ h => map_eq_of_forall₂ (fun _ _ hxy => hxy) h

theorem moves_onEach_map {act : Action ρ Unit} (hact : Moves (fun x y => g y = g x) act) :
    Moves (fun xs ys => ys.map g = xs.map g) (onEach act) :=
  (moves_onEach (R := fun x y => g y = g x) (fun _ => rfl) hact).mono
    fun _ _ h => map_eq_of_forall₂ (fun _ _ hxy => hxy) h

theorem moves_change_key {f : ρ → Except Fault ρ} (h : ∀ x y, f x = .ok y → g y = g x) :
    Moves (fun x y => g y = g x) (change f) :=
  moves_change (R := fun x y => g y = g x) (fun _ => rfl) h

end Keys

theorem moves_sweep (hrefl : ∀ x, R x x) {S : σ → σ → Prop} (hS : ∀ s, S s s)
    (htrans : ∀ s t u, S s t → S t u → S s u) {act : Action (ρ × σ) Unit}
    (hact : Moves (fun p q => R p.1 q.1 ∧ S p.2 q.2) act) :
    Moves (fun p q => Forall₂ R p.1 q.1 ∧ S p.2 q.2) (sweep act) := by
  rintro ⟨items, s⟩
  -- on the items, with the shared state left open
  induction items generalizing s with
  | nil =>
    rw [sweep]
    exact ⟨.nil, hS s⟩
  | cons x rest ih =>
    have hx := hact (x, s)
    unfold sweep
    split
    · rename_i h
      rw [h] at hx
      exact ⟨.cons hx.1 (forall₂_refl hrefl rest), hx.2⟩
    · rename_i y t notices h
      rw [h] at hx
      exact ⟨.cons hx.1 (ih t).1, htrans _ _ _ hx.2 (ih t).2⟩

end Lists

end Action

end FuzzyInference
