import FuzzyInference.Proofs.WrittenLines

/-!
# Texts with other blanks

Two texts that differ in the lengths of their runs of blanks only.  What cuts a text at characters
that are no blanks cuts both of them at the same places, and a text of words between single spaces
is the only one of its kind.
-/

namespace FuzzyInference.Fcl

open Text

/-- One or more blanks. -/
def IsRun (bs : List Char) : Prop := bs ≠ [] ∧ ∀ b ∈ bs, isBlank b = true

/-- The second text is the first one with a single space in the place of some runs of blanks. -/
inductive Respaced : List Char → List Char → Prop where
  | nil : Respaced [] []
  | char {c : Char} {cs ds : List Char} :
    isBlank c = false → Respaced cs ds → Respaced (c :: cs) (c :: ds)
  | run {bs bs' cs ds : List Char} :
    IsRun bs → IsRun bs' → bs' = bs ∨ bs' = [' '] → Respaced cs ds → Respaced (bs ++ cs) (bs' ++ ds)

theorem isRun_singleton {b : Char} (h : isBlank b = true) : IsRun [b] :=
  ⟨by simp, by simpa using h⟩

theorem IsRun.exists_cons {bs : List Char} (h : IsRun bs) :
    ∃ b bs', bs = b :: bs' ∧ isBlank b = true := by
  obtain ⟨b, bs', rfl⟩ := List.exists_cons_of_ne_nil h.1
  exact ⟨b, bs', rfl, h.2 b (by simp)⟩

theorem IsRun.not_mem {bs : List Char} (h : IsRun bs) {c : Char} (hc : isBlank c = false) :
    c ∉ bs := fun hmem => by simp [h.2 c hmem] at hc

theorem IsRun.reverse {bs : List Char} (h : IsRun bs) : IsRun bs.reverse :=
  ⟨by simpa using h.1, fun b hb => h.2 b (List.mem_reverse.mp hb)⟩

theorem bne_of_isBlank {m : Char} (hm : isBlank m = false) (b : Char) (hb : isBlank b = true) :
    (b != m) = true := by
  rw [bne_iff_ne]
  rintro rfl
  rw [hb] at hm
  cases hm

namespace Respaced

variable {cs ds es fs : List Char}

theorem refl (cs : List Char) : Respaced cs cs := by
  induction cs with
  | nil => exact .nil
  | cons c cs ih =>
    by_cases hc : isBlank c = true
    · exact .run (isRun_singleton hc) (isRun_singleton hc) (.inl rfl) ih
    · exact .char (by simpa using hc) ih

theorem append (h : Respaced cs ds) (h' : Respaced es fs) : Respaced (cs ++ es) (ds ++ fs) := by
  induction h with
  | nil => exact h'
  | char hc _ ih => exact .char hc ih
  | run hbs hbs' hkept _ ih =>
    rw [List.append_assoc, List.append_assoc]
    exact .run hbs hbs' hkept ih

theorem reverse (h : Respaced cs ds) : Respaced cs.reverse ds.reverse := by
  induction h with
  | nil => exact .nil
  | char hc _ ih =>
    rw [List.reverse_cons, List.reverse_cons]
    exact ih.append (.char hc .nil)
  | @run bs bs' _ _ hbs hbs' hkept _ ih =>
    rw [List.reverse_append, List.reverse_append]
    refine ih.append ?_
    have hrun := Respaced.run hbs.reverse hbs'.reverse (hkept.imp (congrArg _) (congrArg _)) .nil
    rwa [List.append_nil, List.append_nil] at hrun

/-! ## The first character -/

theorem eq_nil_iff (h : Respaced cs ds) : cs = [] ↔ ds = [] := by
  cases h with
  | nil => exact Iff.rfl
  | char => simp
  | run hbs hbs' => simp [hbs.1, hbs'.1]

theorem head?_isBlank (h : Respaced cs ds) : cs.head?.any isBlank = ds.head?.any isBlank := by
  cases h with
  | nil => rfl
  | char => rfl
  | run hbs hbs' =>
    obtain ⟨b, bs, rfl, hb⟩ := hbs.exists_cons
    obtain ⟨b', bs', rfl, hb'⟩ := hbs'.exists_cons
    simp [hb, hb']

-- A first character that is no blank is the first one of both texts.
theorem cons_inv {c : Char} (hc : isBlank c = false) (h : Respaced cs ds) :
    (∃ cs' ds', cs = c :: cs' ∧ ds = c :: ds' ∧ Respaced cs' ds') ∨
      cs.head? ≠ some c ∧ ds.head? ≠ some c := by
  cases h with
  | nil => exact .inr ⟨by simp, by simp⟩
  | @char d cs' ds' hd h =>
    by_cases hdc : d = c
    · exact .inl ⟨cs', ds', by rw [hdc], by rw [hdc], h⟩
    · exact .inr ⟨by simpa using hdc, by simpa using hdc⟩
  | run hbs hbs' _ h =>
    obtain ⟨b, bs, rfl, hb⟩ := hbs.exists_cons
    obtain ⟨b', bs', rfl, hb'⟩ := hbs'.exists_cons
    have hne {e : Char} (he : isBlank e = true) : e ≠ c := by
      rintro rfl
      rw [he] at hc
      cases hc
    exact .inr ⟨by simpa using hne hb, by simpa using hne hb'⟩

theorem of_cons {c : Char} (hc : isBlank c = false) (h : Respaced (c :: cs) es) :
    ∃ ds, es = c :: ds ∧ Respaced cs ds := by
  rcases h.cons_inv hc with ⟨cs', ds, hcs, hds, h⟩ | ⟨hnot, -⟩
  · obtain rfl := (List.cons.inj hcs).2
    exact ⟨ds, hds, h⟩
  · exact absurd rfl hnot

theorem of_append {p : List Char} (hp : ∀ c ∈ p, isBlank c = false) (h : Respaced (p ++ cs) es) :
    ∃ ds, es = p ++ ds ∧ Respaced cs ds := by
  induction p generalizing es with
  | nil => exact ⟨es, rfl, h⟩
  | cons c p ih =>
    obtain ⟨hc, hp⟩ := List.forall_mem_cons.mp hp
    obtain ⟨fs, rfl, hfs⟩ := h.of_cons hc
    obtain ⟨ds, rfl, hds⟩ := ih hp hfs
    exact ⟨ds, rfl, hds⟩

-- A space in front of a word is a whole run.
theorem of_space (hcs : ∀ c ∈ cs.head?, isBlank c = false) (h : Respaced (' ' :: cs) es) :
    ∃ ds, es = ' ' :: ds ∧ Respaced cs ds := by
  generalize hxs : ' ' :: cs = xs at h
  cases h with
  | nil => cases hxs
  | char hc _ =>
    obtain rfl := (List.cons.inj hxs).1
    exact absurd hc (by decide)
  | @run bs bs' cs' ds' hbs _ hkept h =>
    obtain ⟨b, bs, rfl, -⟩ := hbs.exists_cons
    obtain ⟨rfl, rfl⟩ := List.cons.inj hxs
    cases bs with
    | nil =>
      obtain rfl : bs' = [' '] := hkept.elim id id
      exact ⟨ds', rfl, h⟩
    | cons b bs =>
      have hb := hcs b rfl
      rw [hbs.2 b (by simp)] at hb
      cases hb

/-! ## Characters that are no blanks -/

theorem count_eq {c : Char} (hc : isBlank c = false) (h : Respaced cs ds) :
    cs.count c = ds.count c := by
  induction h with
  | nil => rfl
  | char _ _ ih => rw [List.count_cons, List.count_cons, ih]
  | run hbs hbs' _ _ ih =>
    rw [List.count_append, List.count_append, ih, List.count_eq_zero_of_not_mem (hbs.not_mem hc),
      List.count_eq_zero_of_not_mem (hbs'.not_mem hc)]

theorem mem_iff {c : Char} (hc : isBlank c = false) (h : Respaced cs ds) : c ∈ cs ↔ c ∈ ds := by
  rw [← List.count_pos_iff, h.count_eq hc, List.count_pos_iff]

theorem all_not_blank (h : Respaced cs ds) : cs.all (!isBlank ·) = ds.all (!isBlank ·) := by
  induction h with
  | nil => rfl
  | char _ _ ih => rw [List.all_cons, List.all_cons, ih]
  | run hbs hbs' _ _ _ =>
    obtain ⟨b, bs, rfl, hb⟩ := hbs.exists_cons
    obtain ⟨b', bs', rfl, hb'⟩ := hbs'.exists_cons
    simp [hb, hb']

theorem eq_of_not_blank (hcs : ∀ c ∈ cs, isBlank c = false) (h : Respaced cs ds) : ds = cs := by
  rw [← List.append_nil cs] at h
  obtain ⟨rest, rfl, hrest⟩ := h.of_append hcs
  rw [hrest.eq_nil_iff.mp rfl, List.append_nil]

/-! ## Parts of a text -/

section While

variable {p : Char → Bool}

theorem takeWhile_of_blank (hp : ∀ b, isBlank b = true → p b = true) (h : Respaced cs ds) :
    Respaced (cs.takeWhile p) (ds.takeWhile p) := by
  induction h with
  | nil => exact .nil
  | @char c _ _ hc _ ih =>
    by_cases hpc : p c = true
    · rw [List.takeWhile_cons_of_pos hpc, List.takeWhile_cons_of_pos hpc]
      exact .char hc ih
    · rw [List.takeWhile_cons_of_neg hpc, List.takeWhile_cons_of_neg hpc]
      exact .nil
  | run hbs hbs' hkept _ ih =>
    rw [List.takeWhile_append_of_pos fun b hb => hp b (hbs.2 b hb),
      List.takeWhile_append_of_pos fun b hb => hp b (hbs'.2 b hb)]
    exact .run hbs hbs' hkept ih

-- What ends at a character that is no blank ends at the same one in both texts.
theorem cut (hp : ∀ b, isBlank b = true → p b = true) (h : Respaced cs ds) :
    (cs.dropWhile p = [] ∧ ds.dropWhile p = []) ∨ ∃ c cs' ds', isBlank c = false ∧ p c = false ∧
      cs.dropWhile p = c :: cs' ∧ ds.dropWhile p = c :: ds' ∧ Respaced cs' ds' := by
  induction h with
  | nil => exact .inl ⟨rfl, rfl⟩
  | @char c cs ds hc h ih =>
    by_cases hpc : p c = true
    · rwa [List.dropWhile_cons_of_pos hpc, List.dropWhile_cons_of_pos hpc]
    · rw [List.dropWhile_cons_of_neg hpc, List.dropWhile_cons_of_neg hpc]
      exact .inr ⟨c, cs, ds, hc, by simpa using hpc, rfl, rfl, h⟩
  | run hbs hbs' _ _ ih =>
    rwa [List.dropWhile_append_of_pos fun b hb => hp b (hbs.2 b hb),
      List.dropWhile_append_of_pos fun b hb => hp b (hbs'.2 b hb)]

theorem dropWhile_of_blank (hp : ∀ b, isBlank b = true → p b = true) (h : Respaced cs ds) :
    Respaced (cs.dropWhile p) (ds.dropWhile p) := by
  rcases h.cut hp with ⟨hcs, hds⟩ | ⟨c, cs', ds', hc, -, hcs, hds, htail⟩
  · rw [hcs, hds]
    exact .nil
  · rw [hcs, hds]
    exact .char hc htail

-- What ends at the first blank is the same in both texts.
theorem span_eq (hp : ∀ b, isBlank b = true → p b = false) (h : Respaced cs ds) :
    cs.takeWhile p = ds.takeWhile p ∧ Respaced (cs.dropWhile p) (ds.dropWhile p) := by
  induction h with
  | nil => exact ⟨rfl, .nil⟩
  | @char c _ _ hc h ih =>
    by_cases hpc : p c = true
    · rw [List.takeWhile_cons_of_pos hpc, List.takeWhile_cons_of_pos hpc,
        List.dropWhile_cons_of_pos hpc, List.dropWhile_cons_of_pos hpc, ih.1]
      exact ⟨rfl, ih.2⟩
    · rw [List.takeWhile_cons_of_neg hpc, List.takeWhile_cons_of_neg hpc,
        List.dropWhile_cons_of_neg hpc, List.dropWhile_cons_of_neg hpc]
      exact ⟨rfl, .char hc h⟩
  | run hbs hbs' hkept h _ =>
    obtain ⟨b, bs, rfl, hb⟩ := hbs.exists_cons
    obtain ⟨b', bs', rfl, hb'⟩ := hbs'.exists_cons
    have hneg {e : Char} (he : isBlank e = true) : ¬p e = true := by simp [hp e he]
    rw [List.cons_append, List.cons_append, List.takeWhile_cons_of_neg (hneg hb),
      List.takeWhile_cons_of_neg (hneg hb'), List.dropWhile_cons_of_neg (hneg hb),
      List.dropWhile_cons_of_neg (hneg hb')]
    exact ⟨rfl, .run hbs hbs' hkept h⟩

end While

theorem trimLeft (h : Respaced cs ds) : Respaced (trimLeft cs) (trimLeft ds) :=
  h.dropWhile_of_blank fun _ => id

theorem trimRight (h : Respaced cs ds) : Respaced (trimRight cs) (trimRight ds) :=
  h.reverse.trimLeft.reverse

theorem trim (h : Respaced cs ds) : Respaced (trim cs) (trim ds) := h.trimLeft.trimRight

theorem length_blanks_le (h : Respaced cs ds) :
    (ds.takeWhile isBlank).length ≤ (cs.takeWhile isBlank).length := by
  induction h with
  | nil => exact Nat.le_refl _
  | char hc _ _ => simp [hc]
  | run hbs hbs' hkept _ ih =>
    rw [List.takeWhile_append_of_pos hbs.2, List.takeWhile_append_of_pos hbs'.2,
      List.length_append, List.length_append]
    have hpos := List.length_pos_iff.mpr hbs.1
    rcases hkept with rfl | rfl
    · omega
    · simp only [List.length_singleton]
      omega

end Respaced

/-! ## Cutting at a mark -/

theorem rel_cases {β γ : Type} {r : β → γ → Prop} {x : Option β} {y : Option γ}
    (h : Option.Rel r x y) : (x = none ∧ y = none) ∨ ∃ b c, x = some b ∧ y = some c ∧ r b c := by
  cases h with
  | some h => exact .inr ⟨_, _, rfl, rfl, h⟩
  | none => exact .inl ⟨rfl, rfl⟩

theorem rel_map {β γ β' γ' : Type} {r : β → γ → Prop} {r' : β' → γ' → Prop} {x : Option β}
    {y : Option γ} {f : β → β'} {g : γ → γ'} (h : Option.Rel r x y)
    (hfg : ∀ b c, r b c → r' (f b) (g c)) : Option.Rel r' (x.map f) (y.map g) := by
  cases h with
  | some h => exact .some (hfg _ _ h)
  | none => exact .none

/-- Two parts of a text, each of them respaced. -/
def RespacedParts (parts parts' : List Char × List Char) : Prop :=
  Respaced parts.1 parts'.1 ∧ Respaced parts.2 parts'.2

section Mark

variable {cs ds mark : List Char}

theorem after?_of_head? {m : Char} (h : cs.head? ≠ some m) : after? (m :: mark) cs = none := by
  cases cs with
  | nil => rfl
  | cons c cs => exact if_neg fun hm => h (by rw [hm, List.head?_cons])

theorem Respaced.after? (h : Respaced cs ds) (mark : List Char)
    (hmark : ∀ c ∈ mark, isBlank c = false) :
    Option.Rel Respaced (after? mark cs) (after? mark ds) := by
  induction mark generalizing cs ds with
  | nil => exact .some h
  | cons m mark ih =>
    obtain ⟨hm, hmark⟩ := List.forall_mem_cons.mp hmark
    rcases h.cons_inv hm with ⟨cs', ds', rfl, rfl, htail⟩ | ⟨hcs, hds⟩
    · simpa only [Text.after?, if_true] using ih htail hmark
    · rw [after?_of_head? hcs, after?_of_head? hds]
      exact .none

-- No mark begins in a run of blanks.
theorem splitAt?_run (hmark : IsPiece mark) {bs : List Char} (hbs : ∀ b ∈ bs, isBlank b = true)
    (cs : List Char) : splitAt? mark (bs ++ cs) =
      (splitAt? mark cs).map fun (before, rest) => (bs ++ before, rest) := by
  induction bs with
  | nil => simp
  | cons b bs ih =>
    obtain ⟨hb, hbs⟩ := List.forall_mem_cons.mp hbs
    obtain ⟨m, mark, rfl⟩ := List.exists_cons_of_ne_nil hmark.1
    have hnone : after? (m :: mark) (b :: (bs ++ cs)) = none := after?_of_head? fun hbm => by
      have hm := hmark.2 m (by simp)
      rw [← Option.some.inj hbm, hb] at hm
      cases hm
    rw [List.cons_append, splitAt?, hnone]
    dsimp only
    rw [ih hbs, Option.map_map]
    rfl

theorem Respaced.splitAt? (h : Respaced cs ds) (mark : List Char) (hmark : IsPiece mark) :
    Option.Rel RespacedParts (splitAt? mark cs) (splitAt? mark ds) := by
  induction h with
  | nil =>
    obtain ⟨m, mark, rfl⟩ := List.exists_cons_of_ne_nil hmark.1
    exact .none
  | @char c cs ds hc h ih =>
    rw [Text.splitAt?, Text.splitAt?]
    rcases rel_cases ((Respaced.char hc h).after? mark hmark.2) with
      ⟨hcs, hds⟩ | ⟨_, _, hcs, hds, hrest⟩
    · rw [hcs, hds]
      exact rel_map ih fun _ _ hparts => ⟨.char hc hparts.1, hparts.2⟩
    · rw [hcs, hds]
      exact .some ⟨.nil, hrest⟩
  | run hbs hbs' hkept _ ih =>
    rw [splitAt?_run hmark hbs.2, splitAt?_run hmark hbs'.2]
    exact rel_map ih fun _ _ hparts => ⟨.run hbs hbs' hkept hparts.1, hparts.2⟩

end Mark

/-! ## Names -/

/-- Nothing, or words with a single space between neighbours. -/
def SingleSpaced (name : List Char) : Prop := name = [] ∨ ∀ word ∈ spacedWords name, IsPiece word

instance (name : List Char) : Decidable (SingleSpaced name) := by
  unfold SingleSpaced
  infer_instance

theorem SingleSpaced.exists_spaced {name : List Char} (h : SingleSpaced name) :
    ∃ words, (∀ word ∈ words, IsPiece word) ∧ name = spaced words := by
  rcases h with rfl | h
  · exact ⟨[], by simp, rfl⟩
  · exact ⟨spacedWords name, h, (spaced_spacedWords name).symm⟩

theorem Respaced.eq_of_spaced {words : List (List Char)} {ds : List Char}
    (hwords : ∀ word ∈ words, IsPiece word) (h : Respaced (spaced words) ds) :
    ds = spaced words := by
  induction words generalizing ds with
  | nil => exact h.eq_nil_iff.mp rfl
  | cons word words ih =>
    obtain ⟨hword, hwords⟩ := List.forall_mem_cons.mp hwords
    by_cases hnone : words = []
    · subst hnone
      rw [spaced_singleton] at h ⊢
      exact h.eq_of_not_blank hword.2
    · rw [spaced_cons word hnone] at h ⊢
      obtain ⟨tail, rfl, htail⟩ := h.of_append hword.2
      obtain ⟨rest, rfl, hrest⟩ := htail.of_space (head?_spaced hwords)
      rw [ih hwords hrest]

-- A name of words between single spaces cannot be respaced.
theorem Respaced.eq_of_singleSpaced {name name' : List Char} (hname : SingleSpaced name)
    (h : Respaced name name') : name' = name := by
  obtain ⟨words, hwords, rfl⟩ := hname.exists_spaced
  exact h.eq_of_spaced hwords

end FuzzyInference.Fcl
