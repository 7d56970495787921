import FuzzyInference.Proofs.Comments

/-!
# The layout of a text

Blank lines and lines with one comment say nothing.  A line says the same with blanks in front of it
and with blanks or a comment behind it, whichever ends and beginnings of comments stand in it.
-/

namespace FuzzyInference

/-! ## Margins -/

namespace Text

/-- Blanks only. -/
def Margin (cs : List Char) : Prop := ∀ c ∈ cs, isBlank c = true

instance (cs : List Char) : Decidable (Margin cs) := by
  unfold Margin
  infer_instance

variable {margin : List Char}

theorem Margin.not_mem (h : Margin margin) {c : Char} (hc : isBlank c = false) : c ∉ margin :=
  fun hmem => absurd (h c hmem) (by simp [hc])

theorem trimLeft_margin (h : Margin margin) (cs : List Char) :
    trimLeft (margin ++ cs) = trimLeft cs := List.dropWhile_append_of_pos h

theorem trim_append_left (h : Margin margin) (cs : List Char) : trim (margin ++ cs) = trim cs := by
  unfold trim
  rw [trimLeft_margin h]

theorem trim_append_right (cs : List Char) (h : Margin margin) : trim (cs ++ margin) = trim cs := by
  have hmargin : trimLeft margin = [] := by
    simpa [trimLeft] using trimLeft_margin h []
  have hreverse : Margin margin.reverse := fun c hc => h c (List.mem_reverse.mp hc)
  unfold trim
  rw [show trimLeft (cs ++ margin) = if (trimLeft cs).isEmpty then trimLeft margin
    else trimLeft cs ++ margin from List.dropWhile_append]
  split
  · rename_i hempty
    rw [List.isEmpty_iff.mp hempty, hmargin]
  · rw [Fcl.trimRight_eq, Fcl.trimRight_eq, List.reverse_append, trimLeft_margin hreverse]

end Text

namespace Fcl

open Text

/-! ## What stands around a line -/

variable {front back raw cs : List Char}

theorem afterComment?_append_left (h : '*' ∉ front) (cs : List Char) :
    afterComment? (front ++ cs) = afterComment? cs := by
  induction front with
  | nil => rfl
  | cons c front ih =>
    simp only [List.mem_cons, not_or] at h
    rw [List.cons_append, afterComment?.eq_2 _ _ fun _ hstar => absurd hstar.symm h.1, ih h.2]

theorem beforeSlashes_append_left (h : '/' ∉ front) (cs : List Char) :
    beforeSlashes (front ++ cs) = front ++ beforeSlashes cs := by
  induction front with
  | nil => rfl
  | cons c front ih =>
    simp only [List.mem_cons, not_or] at h
    rw [List.cons_append, beforeSlashes.eq_3 _ _ fun _ hslash => absurd hslash.symm h.1, ih h.2,
      List.cons_append]

/-- Blanks in front of a line make no difference. -/
theorem content_append_left (h : Margin front) (raw : List Char) :
    content (front ++ raw) = content raw := by
  unfold content
  rw [dropComments_append_left (h.not_mem (by decide)),
    beforeSlashes_append_left (h.not_mem (by decide)), trim_append_left h]

/-- What may be put behind a line: blanks, or blanks and a comment up to the end that closes no
comment in brackets. -/
inductive Trailer : List Char → Prop where
  | margin {margin : List Char} : Margin margin → Trailer margin
  | comment {margin comment : List Char} : Margin margin → margin ≠ [] →
    ¬ ['*', ')'] <:+: comment → Trailer (margin ++ '/' :: '/' :: comment)

namespace Trailer

theorem isBlank_head (h : Trailer back) : ∀ c ∈ back.head?, isBlank c = true := by
  cases h with
  | margin hmargin => exact fun c hc => hmargin c (List.mem_of_mem_head? hc)
  | @comment margin comment hmargin hne =>
    rw [List.head?_append_of_ne_nil _ hne]
    exact fun c hc => hmargin c (List.mem_of_mem_head? hc)

theorem head?_ne (h : Trailer back) {c : Char} (hc : isBlank c = false) : back.head? ≠ some c :=
  fun hhead => absurd (h.isBlank_head c hhead) (by simp [hc])

theorem afterComment?_eq_none (h : Trailer back) : afterComment? back = none := by
  cases h with
  | margin hmargin => exact afterComment?_of_not_mem (hmargin.not_mem (by decide))
  | @comment margin comment hmargin _ hcomment =>
    have hfront : '*' ∉ margin ++ ['/', '/'] := by
      simp [hmargin.not_mem (c := '*') (by decide)]
    have hclosed := afterComment?_append_left hfront comment
    rw [List.append_assoc] at hclosed
    exact hclosed.trans (Fcl.afterComment?_eq_none.mpr hcomment)

theorem margin_beforeSlashes (h : Trailer back) : Margin (beforeSlashes back) := by
  cases h with
  | margin hmargin =>
    have hbefore := beforeSlashes_append_left (hmargin.not_mem (by decide)) []
    rw [beforeSlashes, List.append_nil] at hbefore
    rwa [hbefore]
  | @comment margin comment hmargin =>
    rw [beforeSlashes_append_left (hmargin.not_mem (by decide)), beforeSlashes, List.append_nil]
    exact hmargin

-- A comment up to the end begins where the line has one already, or behind the whole line.
theorem exists_beforeSlashes_append (h : Trailer back) (cs : List Char) :
    ∃ margin, Margin margin ∧ beforeSlashes (cs ++ back) = beforeSlashes cs ++ margin := by
  fun_induction beforeSlashes cs with
  | case1 => exact ⟨_, h.margin_beforeSlashes, rfl⟩
  | case2 rest => exact ⟨[], fun _ hc => absurd hc List.not_mem_nil, rfl⟩
  | case3 c cs hnot ih =>
    obtain ⟨margin, hmargin, hbefore⟩ := ih
    refine ⟨margin, hmargin, ?_⟩
    rw [List.cons_append, beforeSlashes.eq_3, hbefore, List.cons_append]
    rintro rest rfl hrest
    cases cs with
    | nil => exact h.head?_ne (c := '/') (by decide) (by rw [show back = _ from hrest]; rfl)
    | cons d cs => exact hnot cs rfl (by rw [(List.cons.inj hrest).1])

end Trailer

/-- Blanks and a comment behind a line make no difference. -/
theorem content_append_right (raw : List Char) (h : Trailer back) :
    content (raw ++ back) = content raw := by
  obtain ⟨margin, hmargin, hbefore⟩ := h.exists_beforeSlashes_append (dropComments raw)
  unfold content
  rw [dropComments_append_right raw h.afterComment?_eq_none (h.head?_ne (by decide))
    (h.head?_ne (by decide)), hbefore, trim_append_right _ hmargin]

/-! ## Lines that say nothing -/

/-- A blank line, or a line with one comment and blanks. -/
inductive Unspoken : List Char → Prop where
  | blank {margin : List Char} : Margin margin → Unspoken margin
  | slashes {front comment : List Char} : Margin front → Unspoken (front ++ '/' :: '/' :: comment)
  | bracketed {front comment back : List Char} : Margin front → ¬ ['*', ')'] <:+: comment →
    Margin back → Unspoken (front ++ '(' :: '*' :: (comment ++ '*' :: ')' :: back))

-- The first end of a comment is the one behind a text without any.
theorem afterComment?_closing {comment : List Char} (h : ¬ ['*', ')'] <:+: comment)
    (rest : List Char) : afterComment? (comment ++ '*' :: ')' :: rest) = some rest := by
  induction comment with
  | nil => rfl
  | cons c comment ih =>
    have hrest : ¬ ['*', ')'] <:+: comment :=
      fun hmark => h (hmark.trans (List.suffix_cons c comment).isInfix)
    rw [List.cons_append, afterComment?.eq_2, ih hrest]
    rintro tail rfl htail
    cases comment with
    | nil => exact absurd (List.cons.inj htail).1 (by decide)
    | cons d comment =>
      obtain rfl : d = ')' := (List.cons.inj htail).1
      exact h ⟨[], comment, rfl⟩

theorem Unspoken.content_eq_nil (h : Unspoken raw) : content raw = [] := by
  cases h with
  | blank hmargin =>
    have hcontent := content_append_left hmargin []
    rw [List.append_nil] at hcontent
    rw [hcontent]
    unfold content
    rw [dropComments]
    rfl
  | @slashes front comment hfront =>
    rw [content_append_left hfront]
    unfold content
    rw [dropComments.eq_3 _ _ (by simp), dropComments.eq_3 _ _ (by simp), beforeSlashes]
    rfl
  | @bracketed front comment back hfront hcomment hback =>
    have hspace : Margin (' ' :: back) := List.forall_mem_cons.mpr ⟨by decide, hback⟩
    rw [content_append_left hfront]
    unfold content
    rw [dropComments_closed (afterComment?_closing hcomment back),
      dropComments_of_unclosed (Trailer.margin hback).afterComment?_eq_none]
    simpa [trim, trimLeft, trimRight] using
      trim_append_left (Trailer.margin hspace).margin_beforeSlashes []

end Fcl

end FuzzyInference
