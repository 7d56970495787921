import FuzzyInference.Fcl.Statement
import FuzzyInference.Fcl.Token

/-!
# Pieces between single spaces

A statement is cut at blanks.  When it consists of pieces without blanks, with a single space
between neighbours, the cuts fall between the pieces, and words are found only as whole pieces.
-/

namespace FuzzyInference.Fcl

open Text

/-- Pieces with a single space between neighbours. -/
def spaced (pieces : List (List Char)) : List Char := [' '].intercalate pieces

/-- A property of all characters of a text is decided along the text, not over all characters. -/
instance (priority := 2000) decidableForallMem (p : Char → Prop) [DecidablePred p]
    (cs : List Char) : Decidable (∀ c ∈ cs, p c) := List.decidableBAll p cs

/-- Something without a blank. -/
def IsPiece (p : List Char) : Prop := p ≠ [] ∧ ∀ c ∈ p, isBlank c = false

instance (p : List Char) : Decidable (IsPiece p) := by
  unfold IsPiece
  infer_instance

/-- The text is over, or goes on with a blank. -/
def Stops (tail : List Char) : Prop := ∀ c ∈ tail.head?, isBlank c = true

@[simp] theorem spaced_nil : spaced [] = [] := rfl

@[simp] theorem spaced_singleton (p : List Char) : spaced [p] = p := List.intercalate_singleton

theorem spaced_cons {ps : List (List Char)} (p : List Char) (h : ps ≠ []) :
    spaced (p :: ps) = p ++ ' ' :: spaced ps := by
  unfold spaced
  rw [List.intercalate_cons_of_ne_nil h, List.append_assoc, List.singleton_append]

theorem spaced_append {ps qs : List (List Char)} (hp : ps ≠ []) (hq : qs ≠ []) :
    spaced (ps ++ qs) = spaced ps ++ ' ' :: spaced qs := by
  induction ps with
  | nil => exact absurd rfl hp
  | cons p ps ih =>
    cases ps with
    | nil => rw [List.singleton_append, spaced_cons p hq, spaced_singleton]
    | cons p' ps =>
      rw [List.cons_append, spaced_cons p (by simp), ih (by simp), spaced_cons p (by simp),
        List.append_assoc, List.cons_append]

theorem reverse_spaced (ps : List (List Char)) :
    (spaced ps).reverse = spaced (ps.map List.reverse).reverse := by
  induction ps with
  | nil => rfl
  | cons p ps ih =>
    by_cases h : ps = []
    · subst h
      simp
    · rw [spaced_cons p h, List.map_cons, List.reverse_cons, spaced_append (by simpa using h)
        (by simp), spaced_singleton, ← ih]
      simp

theorem stops_nil : Stops [] := by simp [Stops]

theorem stops_space (cs : List Char) : Stops (' ' :: cs) := by
  intro c hc
  obtain rfl : ' ' = c := by simpa using hc
  decide

-- A text is its first piece and a stop.
theorem exists_spaced_cons (p : List Char) (ps : List (List Char)) :
    ∃ tail, spaced (p :: ps) = p ++ tail ∧ Stops tail := by
  by_cases h : ps = []
  · subst h
    exact ⟨[], by simp, stops_nil⟩
  · exact ⟨' ' :: spaced ps, spaced_cons p h, stops_space _⟩

theorem mem_spaced {ps : List (List Char)} {c : Char} (h : c ∈ spaced ps) :
    c = ' ' ∨ ∃ p ∈ ps, c ∈ p := by
  induction ps with
  | nil => simp at h
  | cons p ps ih =>
    by_cases hps : ps = []
    · subst hps
      exact .inr ⟨p, by simp, by simpa using h⟩
    · rw [spaced_cons p hps, List.mem_append, List.mem_cons] at h
      rcases h with h | h | h
      · exact .inr ⟨p, by simp, h⟩
      · exact .inl h
      · rcases ih h with h | ⟨q, hq, hc⟩
        · exact .inl h
        · exact .inr ⟨q, by simp [hq], hc⟩

/-! ## Blanks around a piece -/

theorem trimLeft_append_of_piece {p : List Char} (hp : IsPiece p) (tail : List Char) :
    trimLeft (p ++ tail) = p ++ tail := by
  obtain ⟨hne, hblank⟩ := hp
  cases p with
  | nil => exact absurd rfl hne
  | cons c p =>
    unfold trimLeft
    rw [List.cons_append, List.dropWhile_cons_of_neg]
    simp [hblank c]

theorem trimLeft_cons_of_blank {c : Char} (h : isBlank c = true) (cs : List Char) :
    trimLeft (c :: cs) = trimLeft cs := List.dropWhile_cons_of_pos h

theorem trimLeft_spaced {p : List Char} {ps : List (List Char)} (hp : IsPiece p) :
    trimLeft (spaced (p :: ps)) = spaced (p :: ps) := by
  obtain ⟨tail, htail, -⟩ := exists_spaced_cons p ps
  rw [htail, trimLeft_append_of_piece hp]

theorem trimRight_eq (cs : List Char) : trimRight cs = (trimLeft cs.reverse).reverse := rfl

theorem isPiece_reverse {p : List Char} (hp : IsPiece p) : IsPiece p.reverse :=
  ⟨by simpa using hp.1, fun c hc => hp.2 c (List.mem_reverse.mp hc)⟩

theorem isPiece_mirror {ps : List (List Char)} (hps : ∀ p ∈ ps, IsPiece p) :
    ∀ q ∈ (ps.map List.reverse).reverse, IsPiece q := by
  intro q hq
  obtain ⟨p, hp, rfl⟩ : ∃ p ∈ ps, p.reverse = q := by simpa using hq
  exact isPiece_reverse (hps p hp)

theorem trimRight_spaced {ps : List (List Char)} (hps : ∀ p ∈ ps, IsPiece p) :
    trimRight (spaced ps) = spaced ps := by
  have hmirror := isPiece_mirror hps
  rw [trimRight_eq, reverse_spaced]
  cases h : (ps.map List.reverse).reverse with
  | nil =>
    obtain rfl : ps = [] := by simpa using h
    rfl
  | cons q qs =>
    rw [h] at hmirror
    rw [trimLeft_spaced (hmirror q List.mem_cons_self), ← h, ← reverse_spaced,
      List.reverse_reverse]

theorem trim_spaced {ps : List (List Char)} (hps : ∀ p ∈ ps, IsPiece p) :
    trim (spaced ps) = spaced ps := by
  cases ps with
  | nil => rfl
  | cons p ps =>
    unfold trim
    rw [trimLeft_spaced (hps p (by simp)), trimRight_spaced hps]

theorem trim_piece {p : List Char} (hp : IsPiece p) : trim p = p := by
  have h := trim_spaced (List.forall_mem_singleton.mpr hp)
  rwa [spaced_singleton] at h

theorem trimRight_concat_space {ps : List (List Char)} (hps : ∀ p ∈ ps, IsPiece p) :
    trimRight (spaced ps ++ [' ']) = spaced ps := by
  rw [trimRight_eq, List.reverse_append, List.reverse_singleton, List.singleton_append,
    trimLeft_cons_of_blank (by decide), ← trimRight_eq, trimRight_spaced hps]

theorem trim_concat_space {ps : List (List Char)} (hps : ∀ p ∈ ps, IsPiece p) :
    trim (spaced ps ++ [' ']) = spaced ps := by
  cases ps with
  | nil => rfl
  | cons p ps =>
    obtain ⟨tail, htail, -⟩ := exists_spaced_cons p ps
    have hright := trimRight_concat_space hps
    unfold trim
    rw [htail, List.append_assoc] at hright ⊢
    rw [trimLeft_append_of_piece (hps p (by simp)), hright]

theorem trim_cons_space {ps : List (List Char)} (hps : ∀ p ∈ ps, IsPiece p) :
    trim (' ' :: spaced ps) = spaced ps := by
  unfold trim
  rw [trimLeft_cons_of_blank (by decide)]
  exact trim_spaced hps

theorem trim_cons_space_piece {p : List Char} (hp : IsPiece p) : trim (' ' :: p) = p := by
  have h := trim_cons_space (List.forall_mem_singleton.mpr hp)
  rwa [spaced_singleton] at h

theorem spaced_ne_nil {ps : List (List Char)} (hps : ∀ p ∈ ps, IsPiece p) (hne : ps ≠ []) :
    spaced ps ≠ [] := by
  obtain ⟨p, ps, rfl⟩ := List.exists_cons_of_ne_nil hne
  obtain ⟨tail, htail, -⟩ := exists_spaced_cons p ps
  rw [htail]
  simp [(hps p (by simp)).1]

theorem head?_spaced {ps : List (List Char)} (hps : ∀ p ∈ ps, IsPiece p) :
    ∀ c ∈ (spaced ps).head?, isBlank c = false := by
  cases ps with
  | nil => simp
  | cons p ps =>
    obtain ⟨tail, htail, -⟩ := exists_spaced_cons p ps
    obtain ⟨hne, hblank⟩ := hps p (by simp)
    obtain ⟨d, p', rfl⟩ := List.exists_cons_of_ne_nil hne
    intro c hc
    rw [htail, List.cons_append, List.head?_cons] at hc
    exact hblank c (by simp [Option.some.inj hc])

theorem takeWhile_piece {p tail : List Char} (hp : ∀ c ∈ p, isBlank c = false)
    (htail : Stops tail) :
    (p ++ tail).takeWhile (!isBlank ·) = p := by
  rw [List.takeWhile_append_of_pos (fun c hc => by simp [hp c hc])]
  cases tail with
  | nil => simp
  | cons c tail => simp [htail c rfl]

theorem dropWhile_piece {p tail : List Char} (hp : ∀ c ∈ p, isBlank c = false)
    (htail : Stops tail) :
    (p ++ tail).dropWhile (!isBlank ·) = tail := by
  rw [List.dropWhile_append_of_pos (fun c hc => by simp [hp c hc])]
  cases tail with
  | nil => rfl
  | cons c tail => simp [htail c rfl]

/-! ## Words among pieces -/

theorem afterWord?_of_nonblank {word : List Char} {c : Char} (h : isBlank c = false)
    (cs : List Char) : afterWord? word (c :: cs) = none := by
  unfold afterWord?
  simp [h]

-- A word stands behind a space only as a whole piece with another one behind it.
theorem afterWord?_spaced {word q : List Char} {qs : List (List Char)} (hword : IsPiece word)
    (hqs : ∀ p ∈ q :: qs, IsPiece p) :
    afterWord? word (' ' :: spaced (q :: qs)) =
      if q = word ∧ qs ≠ [] then some (spaced qs) else none := by
  obtain ⟨tail, htail, hstops⟩ := exists_spaced_cons q qs
  have hq := hqs q (by simp)
  have hblank : isBlank ' ' = true := by decide
  unfold afterWord?
  dsimp only
  rw [if_pos hblank, trimLeft_cons_of_blank hblank, trimLeft_spaced hq]
  by_cases h : q = word ∧ qs ≠ []
  · obtain ⟨rfl, hne⟩ := h
    obtain ⟨q', qs', rfl⟩ := List.exists_cons_of_ne_nil hne
    have hq' := hqs q' (by simp)
    have hspaced : spaced (q' :: qs') ≠ [] :=
      spaced_ne_nil (fun p hp => hqs p (List.mem_cons_of_mem q hp)) hne
    rw [if_pos ⟨rfl, hne⟩, spaced_cons q hne, after?_append]
    dsimp only
    rw [trimLeft_spaced hq', if_pos ⟨hblank, hspaced⟩]
  · rw [if_neg h]
    split
    · rename_i b rest hafter
      rw [if_neg]
      rintro ⟨hb, hrest⟩
      -- both sides begin with a piece that a blank ends, so the pieces are the same
      have heq := eq_append_of_after? hafter
      have hb' : Stops (b :: rest) := fun c hc => by simp at hc; rwa [← hc]
      rw [htail] at heq
      have hword' := congrArg (List.takeWhile (!isBlank ·)) heq
      rw [takeWhile_piece hq.2 hstops, takeWhile_piece hword.2 hb'] at hword'
      subst hword'
      obtain rfl : tail = b :: rest := List.append_cancel_left heq
      refine h ⟨rfl, ?_⟩
      rintro rfl
      simp at htail
    · rfl

theorem splitAtWord?_piece {word p : List Char} (hp : IsPiece p) (tail : List Char) :
    splitAtWord? word (p ++ tail) =
      match afterWord? word tail with
      | some rest => some (p, rest)
      | none => (splitAtWord? word tail).map fun (before, rest) => (p ++ before, rest) := by
  obtain ⟨hne, hblank⟩ := hp
  -- on the piece: inside of it stands no blank that the word could follow
  induction p with
  | nil => exact absurd rfl hne
  | cons c p ih =>
    rw [List.cons_append, splitAtWord?]
    by_cases hp : p = []
    · subst hp
      rfl
    · obtain ⟨d, p', rfl⟩ := List.exists_cons_of_ne_nil hp
      rw [List.cons_append, afterWord?_of_nonblank (hblank d (by simp))]
      dsimp only
      rw [← List.cons_append, ih hp fun c hc => hblank c (by simp [hc])]
      cases afterWord? word tail with
      | some rest => rfl
      | none => simp [Function.comp_def]

theorem splitAtWord?_space {word p : List Char} (hp : IsPiece p) (ps : List (List Char)) :
    splitAtWord? word (' ' :: spaced (p :: ps)) =
      (splitAtWord? word (spaced (p :: ps))).map fun (before, rest) => (' ' :: before, rest) := by
  obtain ⟨tail, htail, -⟩ := exists_spaced_cons p ps
  obtain ⟨hne, hblank⟩ := hp
  obtain ⟨c, p', rfl⟩ := List.exists_cons_of_ne_nil hne
  rw [splitAtWord?, htail, List.cons_append, afterWord?_of_nonblank (hblank c (by simp))]

-- A text is cut at the first piece that is the word.
theorem splitAtWord?_spaced {word : List Char} {ps qs : List (List Char)} (hword : IsPiece word)
    (hps : ∀ p ∈ ps, IsPiece p) (hqs : ∀ q ∈ qs, IsPiece q) (hp : ps ≠ []) (hq : qs ≠ [])
    (hfirst : word ∉ ps) :
    splitAtWord? word (spaced (ps ++ word :: qs)) = some (spaced ps, spaced qs) := by
  -- on the pieces before the word; none of them is the word, so the search goes on
  induction ps with
  | nil => exact absurd rfl hp
  | cons p ps ih =>
    have hword_qs : ∀ x ∈ word :: qs, IsPiece x := List.forall_mem_cons.mpr ⟨hword, hqs⟩
    obtain ⟨hp₁, hps⟩ := List.forall_mem_cons.mp hps
    rw [List.cons_append, spaced_cons p (by simp), splitAtWord?_piece hp₁]
    cases ps with
    | nil =>
      rw [List.nil_append, afterWord?_spaced hword hword_qs, if_pos ⟨rfl, hq⟩, spaced_singleton]
    | cons p' ps =>
      have hne : p' ≠ word := fun h => hfirst (by simp [h])
      have hrest : ∀ x ∈ p' :: (ps ++ word :: qs), IsPiece x := by
        intro x hx
        rw [← List.cons_append, List.mem_append] at hx
        exact hx.elim (hps x) (hword_qs x)
      rw [List.cons_append, afterWord?_spaced hword hrest, if_neg (fun h => hne h.1)]
      dsimp only
      rw [splitAtWord?_space (hrest p' (by simp)), ← List.cons_append,
        ih hps (by simp) fun h => hfirst (by simp [h]), spaced_cons p (by simp)]
      rfl

/-! ## A weight at the end -/

theorem splitWeight_spaced {ps : List (List Char)} {weight : List Char}
    (hps : ∀ p ∈ ps, IsPiece p) (hp : ps ≠ []) (hweight : IsPiece weight) :
    splitWeight (spaced (ps ++ ["WITH".toList, weight])) = (spaced ps, some weight) := by
  have hword : IsPiece "WITH".toList.reverse := by decide
  have hpieces : ∀ x ∈ "WITH".toList.reverse :: (ps.map List.reverse).reverse, IsPiece x :=
    List.forall_mem_cons.mpr ⟨hword, isPiece_mirror hps⟩
  -- the weight is looked for from the end, in the text read backwards
  have hmirror : (spaced (ps ++ ["WITH".toList, weight])).reverse =
      weight.reverse ++ ' ' :: spaced ("WITH".toList.reverse :: (ps.map List.reverse).reverse) := by
    rw [reverse_spaced, ← spaced_cons _ (by simp)]
    simp
  have hmirrored := (isPiece_reverse hweight).2
  unfold splitWeight
  dsimp only
  rw [hmirror, takeWhile_piece hmirrored (stops_space _),
    dropWhile_piece hmirrored (stops_space _), afterWord?_spaced hword hpieces,
    if_pos ⟨rfl, by simpa using hp⟩]
  dsimp only
  rw [← reverse_spaced, List.reverse_reverse, List.reverse_reverse]

theorem splitWeight_of_not_mem {ps : List (List Char)} (hps : ∀ p ∈ ps, IsPiece p)
    (hwith : "WITH".toList ∉ ps) : splitWeight (spaced ps) = (spaced ps, none) := by
  have hword : IsPiece "WITH".toList.reverse := by decide
  have hpieces := isPiece_mirror hps
  have hwith' : "WITH".toList.reverse ∉ (ps.map List.reverse).reverse := by
    simpa using hwith
  -- read backwards, the last piece but one is not the word either
  have hnone : afterWord? "WITH".toList.reverse
      ((spaced ps).reverse.dropWhile (!isBlank ·)) = none := by
    rw [reverse_spaced]
    cases h : (ps.map List.reverse).reverse with
    | nil => rfl
    | cons q qs =>
      rw [h] at hpieces hwith'
      have hq := (hpieces q (by simp)).2
      by_cases hqs : qs = []
      · subst hqs
        have hdrop := dropWhile_piece hq stops_nil
        rw [List.append_nil] at hdrop
        rw [spaced_singleton, hdrop]
        rfl
      · obtain ⟨q', qs', rfl⟩ := List.exists_cons_of_ne_nil hqs
        rw [spaced_cons q hqs, dropWhile_piece hq (stops_space _),
          afterWord?_spaced hword fun x hx => hpieces x (by simp_all), if_neg]
        rintro ⟨rfl, -⟩
        exact hwith' (by simp)
  unfold splitWeight
  dsimp only
  rw [hnone]

/-! ## Tokens of pieces -/

theorem flush_eq (begun : List Char) (tokens : List Token) :
    Token.scan.flush begun tokens = Token.scan.flush begun [] ++ tokens := by
  unfold Token.scan.flush
  split <;> simp

theorem scan_opening (begun rest : List Char) :
    Token.scan begun ('(' :: rest) = Token.scan.flush begun (.opening :: Token.scan [] rest) := rfl

theorem scan_closing (begun rest : List Char) :
    Token.scan begun (')' :: rest) = Token.scan.flush begun (.closing :: Token.scan [] rest) := rfl

theorem scan_other {c : Char} (hopening : c ≠ '(') (hclosing : c ≠ ')') (begun rest : List Char) :
    Token.scan begun (c :: rest) =
      if isBlank c then Token.scan.flush begun (Token.scan [] rest)
      else Token.scan (c :: begun) rest := by
  rw [Token.scan.eq_def]
  split
  · rename_i h
    cases h
  · rename_i h
    exact absurd (List.cons.inj h).1 hopening
  · rename_i h
    exact absurd (List.cons.inj h).1 hclosing
  · rename_i h
    obtain ⟨rfl, rfl⟩ := List.cons.inj h
    rfl

theorem scan_blank {c : Char} (h : isBlank c = true) (begun rest : List Char) :
    Token.scan begun (c :: rest) = Token.scan.flush begun (Token.scan [] rest) := by
  have hopening : c ≠ '(' := by rintro rfl; simp [isBlank] at h
  have hclosing : c ≠ ')' := by rintro rfl; simp [isBlank] at h
  rw [scan_other hopening hclosing, if_pos h]

theorem scan_wordChar {c : Char} (h : Token.isWordChar c = true) (begun rest : List Char) :
    Token.scan begun (c :: rest) = Token.scan (c :: begun) rest := by
  simp only [Token.isWordChar, Bool.not_eq_true', Bool.or_eq_false_iff, beq_eq_false_iff_ne] at h
  obtain ⟨⟨hblank, hopening⟩, hclosing⟩ := h
  rw [scan_other hopening hclosing, if_neg (by simp [hblank])]

-- A blank or a bracket ends the word begun before it, whatever stands before that.
theorem scan_append (mark : List Char) {tokens : List Token} {rest : List Char}
    (hmark : ∀ begun, Token.scan begun (mark ++ rest) = Token.scan.flush begun tokens)
    (begun p : List Char) :
    Token.scan begun (p ++ (mark ++ rest)) = Token.scan begun p ++ tokens := by
  -- on the text; only the end of a word waits for what the mark does
  induction p generalizing begun with
  | nil =>
    rw [List.nil_append, hmark, flush_eq]
    rfl
  | cons c p ih =>
    rw [List.cons_append]
    by_cases hopening : c = '('
    · subst hopening
      rw [scan_opening, scan_opening, ih, flush_eq, flush_eq _ (.opening :: Token.scan [] p)]
      simp
    by_cases hclosing : c = ')'
    · subst hclosing
      rw [scan_closing, scan_closing, ih, flush_eq, flush_eq _ (.closing :: Token.scan [] p)]
      simp
    by_cases hblank : isBlank c = true
    · rw [scan_blank hblank, scan_blank hblank, ih, flush_eq, flush_eq _ (Token.scan [] p)]
      simp
    · have hword : Token.isWordChar c = true := by
        simp [Token.isWordChar, hopening, hclosing, hblank]
      rw [scan_wordChar hword, scan_wordChar hword, ih]

theorem ofText_append_space (p rest : List Char) :
    Token.ofText (p ++ ' ' :: rest) = Token.ofText p ++ Token.ofText rest :=
  scan_append [' '] (fun begun => scan_blank (by decide) begun rest) [] p

-- The tokens of a text are those of its pieces.
theorem ofText_spaced (ps : List (List Char)) :
    Token.ofText (spaced ps) = ps.flatMap Token.ofText := by
  induction ps with
  | nil => rfl
  | cons p ps ih =>
    by_cases h : ps = []
    · subst h
      simp
    · rw [spaced_cons p h, ofText_append_space, ih, List.flatMap_cons]

theorem ofText_opening (p : List Char) : Token.ofText ('(' :: p) = .opening :: Token.ofText p :=
  scan_opening [] p

theorem ofText_closing (p : List Char) : Token.ofText (p ++ [')']) = Token.ofText p ++ [.closing] :=
  scan_append [')'] (fun begun => scan_closing begun []) [] p

theorem scan_word {p : List Char} (hp : ∀ c ∈ p, Token.isWordChar c = true) (begun : List Char) :
    Token.scan begun p = Token.scan.flush (p.reverse ++ begun) [] := by
  induction p generalizing begun with
  | nil => rfl
  | cons c p ih =>
    rw [scan_wordChar (hp c (by simp)), ih fun d hd => hp d (by simp [hd])]
    simp

theorem ofText_word {p : List Char} (hne : p ≠ []) (hp : ∀ c ∈ p, Token.isWordChar c = true) :
    Token.ofText p = [.word (String.ofList p)] := by
  unfold Token.ofText
  rw [scan_word hp]
  unfold Token.scan.flush
  rw [if_neg (by simpa using hne)]
  simp

end FuzzyInference.Fcl
