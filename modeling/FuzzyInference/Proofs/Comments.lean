import FuzzyInference.Proofs.WrittenLines
import FuzzyInference.Proofs.WrittenRules

/-!
# Comments in a written condition

A bracket that is written in front of a name can begin a comment.  Such a comment cuts a whole
bracket out of the condition, and what is left between two joints cannot be read.
-/

namespace FuzzyInference.Fcl

open Text

variable {α : Type}

/-! ## Dropping comments from a part of a text -/

theorem exists_of_afterComment? {cs rest : List Char} (h : afterComment? cs = some rest) :
    ∃ inner, cs = inner ++ '*' :: ')' :: rest := by
  fun_induction afterComment? cs with
  | case1 tail =>
    obtain rfl := Option.some.inj h
    exact ⟨[], rfl⟩
  | case2 c cs _ ih =>
    obtain ⟨inner, hinner⟩ := ih h
    exact ⟨c :: inner, by rw [hinner, List.cons_append]⟩
  | case3 => cases h

-- What closes no comment has no end that closes one.
theorem afterComment?_of_cons {c : Char} {cs : List Char} (h : afterComment? (c :: cs) = none) :
    afterComment? cs = none := by
  rw [afterComment?.eq_2] at h
  · exact h
  · rintro rest rfl rfl
    cases h

theorem afterComment?_eq_none {cs : List Char} :
    afterComment? cs = none ↔ ¬ ['*', ')'] <:+: cs := by
  constructor
  · rintro h ⟨before, rest, rfl⟩
    rw [List.append_assoc] at h
    induction before with
    | nil => cases h
    | cons c before ih => exact ih (afterComment?_of_cons h)
  · intro h
    cases hafter : afterComment? cs with
    | none => rfl
    | some rest =>
      obtain ⟨inner, rfl⟩ := exists_of_afterComment? hafter
      exact absurd ⟨inner, rest, by simp⟩ h

theorem afterComment?_of_not_mem {cs : List Char} (h : ')' ∉ cs) : afterComment? cs = none :=
  afterComment?_eq_none.mpr fun hmark => h (hmark.subset (by simp))

theorem afterComment?_append (cs : List Char) {tail : List Char} (htail : afterComment? tail = none)
    (hhead : tail.head? ≠ some ')') :
    afterComment? (cs ++ tail) = (afterComment? cs).map (· ++ tail) := by
  fun_induction afterComment? cs with
  | case1 => rfl
  | case2 c cs hnot ih =>
    rw [List.cons_append, afterComment?.eq_2, ih]
    rintro rest rfl hrest
    -- the end of a comment lies in the first part, or its bracket begins the second
    cases cs with
    | nil => exact hhead (by rw [show tail = ')' :: rest from hrest, List.head?_cons])
    | cons d cs => exact hnot cs rfl (by simpa using (List.cons.inj hrest).1)
  | case3 => exact htail

theorem dropComments_closed {body rest : List Char} (h : afterComment? body = some rest) :
    dropComments ('(' :: '*' :: body) = ' ' :: dropComments rest := by
  rw [dropComments.eq_2]
  split
  · rename_i h'
    obtain rfl := Option.some.inj (h.symm.trans h')
    rfl
  · rename_i h'
    cases h.symm.trans h'

theorem dropComments_unclosed {body : List Char} (h : afterComment? body = none) :
    dropComments ('(' :: '*' :: body) = '(' :: dropComments ('*' :: body) := by
  rw [dropComments.eq_2]
  split
  · rename_i h'
    cases h.symm.trans h'
  · rfl

theorem dropComments_append_left {head : List Char} (h : '(' ∉ head) (cs : List Char) :
    dropComments (head ++ cs) = head ++ dropComments cs := by
  induction head with
  | nil => rfl
  | cons c head ih =>
    simp only [List.mem_cons, not_or] at h
    rw [List.cons_append, dropComments.eq_3 _ _ fun _ hopening => absurd hopening.symm h.1, ih h.2,
      List.cons_append]

theorem dropComments_of_unclosed {cs : List Char} (h : afterComment? cs = none) :
    dropComments cs = cs := by
  fun_induction dropComments cs with
  | case1 => rfl
  | case2 body rest hafter =>
    cases (afterComment?_of_cons (afterComment?_of_cons h)).symm.trans hafter
  | case3 body hafter ih => rw [ih (afterComment?_of_cons h)]
  | case4 c rest hnot ih => rw [ih (afterComment?_of_cons h)]

-- A tail that closes no comment, whatever the text in front of it ends with.
theorem dropComments_append_right (cs : List Char) {tail : List Char}
    (htail : afterComment? tail = none) (hclosing : tail.head? ≠ some ')')
    (hstar : tail.head? ≠ some '*') : dropComments (cs ++ tail) = dropComments cs ++ tail := by
  fun_induction dropComments cs with
  | case1 => exact dropComments_of_unclosed htail
  | case2 body rest hafter _ ih =>
    have hafter' : afterComment? (body ++ tail) = some (rest ++ tail) := by
      rw [afterComment?_append body htail hclosing, hafter, Option.map_some]
    rw [List.cons_append, List.cons_append, dropComments_closed hafter', ih, List.cons_append]
  | case3 body hafter ih =>
    have hafter' : afterComment? (body ++ tail) = none := by
      rw [afterComment?_append body htail hclosing, hafter, Option.map_none]
    rw [List.cons_append, List.cons_append, dropComments_unclosed hafter', ← List.cons_append, ih,
      List.cons_append]
  | case4 c rest hnot ih =>
    rw [List.cons_append, dropComments.eq_3, ih, List.cons_append]
    rintro body rfl hbody
    cases rest with
    | nil => simp [show tail = '*' :: body from hbody] at hstar
    | cons d rest => exact hnot rest rfl (by rw [(List.cons.inj hbody).1])

theorem head?_dropComments (cs : List Char) :
    (dropComments cs).head? = cs.head? ∨ (dropComments cs).head? = some ' ' := by
  fun_cases dropComments cs with
  | case1 => exact .inl rfl
  | case2 => exact .inr rfl
  | case3 => exact .inl rfl
  | case4 => exact .inl rfl

theorem unslashed_dropComments {cs : List Char} (h : Unslashed cs) :
    Unslashed (dropComments cs) := by
  -- in front of a kept character stands the one before it, or the space of a comment
  have hkept {c : Char} {rest : List Char} (h : Unslashed (c :: rest))
      (hrest : Unslashed (dropComments rest)) : Unslashed (c :: dropComments rest) := by
    refine hrest.cons fun d hd hslashes => ?_
    rcases head?_dropComments rest with hhead | hhead
    · rw [hhead] at hd
      exact (List.isChain_cons.mp h).1 d hd hslashes
    · rw [hhead] at hd
      obtain rfl : ' ' = d := Option.some.inj hd
      exact absurd hslashes.2 (by decide)
  fun_induction dropComments cs with
  | case1 => exact h
  | case2 body rest hafter _ ih =>
    obtain ⟨inner, rfl⟩ := exists_of_afterComment? hafter
    have hrest : Unslashed rest :=
      List.IsChain.suffix h ⟨'(' :: '*' :: inner ++ ['*', ')'], by simp⟩
    exact (ih hrest).cons fun d _ hslashes => absurd hslashes.1 (by decide)
  | case3 body _ ih => exact hkept h (ih (List.isChain_cons.mp h).2)
  | case4 c rest _ ih => exact hkept h (ih (List.isChain_cons.mp h).2)

/-! ## Tokens behind blanks and brackets -/

theorem ofText_append_opening (p rest : List Char) :
    Token.ofText (p ++ '(' :: rest) = Token.ofText p ++ .opening :: Token.ofText rest :=
  scan_append ['('] (fun begun => scan_opening begun rest) [] p

theorem ofText_append_closing (p rest : List Char) :
    Token.ofText (p ++ ')' :: rest) = Token.ofText p ++ .closing :: Token.ofText rest :=
  scan_append [')'] (fun begun => scan_closing begun rest) [] p

/-! ## What a comment cuts out -/

/-- The second tokens are the first ones without one or more pieces, each of which began with an
opening and ended with a closing bracket. -/
inductive Cut : List Token → List Token → Prop where
  | one (inner rest : List Token) : Cut (.opening :: inner ++ .closing :: rest) rest
  | more {rest kept : List Token} (inner : List Token) :
    Cut rest kept → Cut (.opening :: inner ++ .closing :: rest) kept
  | later {rest kept : List Token} (t : Token) : Cut rest kept → Cut (t :: rest) (t :: kept)

theorem Cut.append_left {rest kept : List Token} (h : Cut rest kept) (ts : List Token) :
    Cut (ts ++ rest) (ts ++ kept) := by
  induction ts with
  | nil => exact h
  | cons t ts ih => exact ih.later t

theorem Cut.subset {ts kept : List Token} (h : Cut ts kept) : kept ⊆ ts := by
  induction h with
  | one inner rest => exact fun t ht => by simp [ht]
  | more inner _ ih => exact fun t ht => by simp [ih ht]
  | later t _ ih => exact List.cons_subset_cons t ih

-- Comments cut their brackets out of the tokens.
theorem uncommented_or_cut (cs p : List Char) :
    Uncommented cs ∨ Cut (Token.ofText (p ++ cs)) (Token.ofText (p ++ dropComments cs)) := by
  unfold Uncommented
  fun_induction dropComments cs generalizing p with
  | case1 => exact .inl rfl
  | case2 body rest hafter _ ih =>
    obtain ⟨inner, rfl⟩ := exists_of_afterComment? hafter
    have htokens : Token.ofText (p ++ '(' :: '*' :: (inner ++ '*' :: ')' :: rest)) =
        Token.ofText p ++ (.opening :: Token.ofText ('*' :: inner ++ ['*']) ++
          .closing :: Token.ofText rest) := by
      have hsplit : '*' :: (inner ++ '*' :: ')' :: rest) =
          '*' :: inner ++ ['*'] ++ ')' :: rest := by simp
      rw [ofText_append_opening, hsplit, ofText_append_closing]
      rfl
    rw [htokens, ofText_append_space]
    refine .inr (Cut.append_left ?_ _)
    rcases ih [] with h | h
    · rw [h]
      exact .one _ _
    · exact .more _ h
  | case3 body _ ih =>
    rcases ih (p ++ ['(']) with h | h
    · exact .inl (by rw [h])
    · rw [List.append_assoc, List.append_assoc] at h
      exact .inr h
  | case4 c rest _ ih =>
    rcases ih (p ++ [c]) with h | h
    · exact .inl (by rw [h])
    · rw [List.append_assoc, List.append_assoc] at h
      exact .inr h

/-! ## Neighbours among the tokens of a condition -/

/-- An operand is to come behind the token. -/
def Token.Awaits (t : Token) : Prop := t = .opening ∨ t = .word "AND" ∨ t = .word "OR"

/-- An operand has to be over in front of the token. -/
def Token.Follows (t : Token) : Prop := t = .closing ∨ t = .word "AND" ∨ t = .word "OR"

/-- A token that can stand in front of another one. -/
structure Neighbours (s t : Token) : Prop where
  operand : s.Awaits → ¬t.Follows
  opening : t = .opening → s.Awaits
  closing : s = .closing → t.Follows

/-- The tokens can stand wherever an operand can stand. -/
def Fits (tokens : List Token) : Prop :=
  ∀ s e, s.Awaits → e.Follows → (s :: tokens ++ [e]).IsChain Neighbours

theorem Token.Awaits.ne_closing {t : Token} (h : t.Awaits) : t ≠ .closing := by
  rintro rfl
  rcases h with h | h | h <;> cases h

theorem Token.Follows.ne_opening {t : Token} (h : t.Follows) : t ≠ .opening := by
  rintro rfl
  rcases h with h | h | h <;> cases h

/-- A word that is no joint. -/
def IsPlain (t : Token) : Prop := ∃ w, t = .word w ∧ w ≠ "AND" ∧ w ≠ "OR"

theorem IsPlain.not_joint {t : Token} (h : IsPlain t) : ¬t.Awaits ∧ ¬t.Follows := by
  obtain ⟨w, rfl, hand, hor⟩ := h
  constructor
  · rintro (h | h | h)
    · cases h
    · exact hand (Token.word.inj h)
    · exact hor (Token.word.inj h)
  · rintro (h | h | h)
    · cases h
    · exact hand (Token.word.inj h)
    · exact hor (Token.word.inj h)

theorem IsPlain.ne_bracket {t : Token} (h : IsPlain t) : t ≠ .opening ∧ t ≠ .closing := by
  obtain ⟨w, rfl, -, -⟩ := h
  exact ⟨by simp, by simp⟩

-- Behind a plain word anything but an opening bracket can stand.
theorem chain_plain {ts : List Token} (h : ∀ t ∈ ts, IsPlain t) {s e : Token} (hs : s ≠ .closing)
    (he : e ≠ .opening) (hend : ts = [] → s.Awaits → ¬e.Follows) :
    (s :: ts ++ [e]).IsChain Neighbours := by
  induction ts generalizing s with
  | nil =>
    exact List.isChain_pair.mpr ⟨hend rfl, fun h => absurd h he, fun h => absurd h hs⟩
  | cons t ts ih =>
    obtain ⟨ht, hts⟩ := List.forall_mem_cons.mp h
    refine List.IsChain.cons_cons ⟨fun _ => ht.not_joint.2, fun h => absurd h ht.ne_bracket.1,
      fun h => absurd h hs⟩ (ih hts ht.ne_bracket.2 fun _ h => absurd h ht.not_joint.1)

theorem fits_comparison {name term : List String} {negated : Bool} (hname : CanNameVariable name)
    (hterm : CanNameTerm negated term) : Fits (comparisonTokens name negated term) := by
  have hplain : ∀ t ∈ comparisonTokens name negated term, IsPlain t := by
    intro t ht
    unfold comparisonTokens at ht
    simp only [List.mem_append, List.mem_cons, List.mem_map] at ht
    rcases ht with (⟨w, hw, rfl⟩ | rfl | ht) | ⟨w, hw, rfl⟩
    · exact ⟨w, rfl, (hname.2 w hw).1, (hname.2 w hw).2.1⟩
    · exact ⟨"IS", rfl, by decide, by decide⟩
    · cases negated with
      | false => simp at ht
      | true => exact ⟨"NOT", by simpa using ht, by decide, by decide⟩
    · exact ⟨w, rfl, hterm.2.1 w hw⟩
  intro s e hs he
  refine chain_plain hplain hs.ne_closing he.ne_opening fun h => ?_
  simp [comparisonTokens] at h

theorem Fits.joined {left right : List Token} {joint : Token} (hleft : Fits left)
    (hright : Fits right) (hjoint : joint.Awaits ∧ joint.Follows) :
    Fits (left ++ joint :: right) := by
  intro s e hs he
  have hboth := List.isChain_split.mpr ⟨hleft s joint hs hjoint.2, hright joint e hjoint.1 he⟩
  simpa using hboth

-- The tokens of a condition can stand between two joints, and in brackets.
theorem Derives.fits {inputs : List (Variable α)} {rank : Rank} {tokens : List Token}
    {c : Condition} (h : Derives inputs rank tokens c) : Fits tokens := by
  induction h with
  | comparison hname hterm _ _ => exact fits_comparison hname hterm
  | brackets _ ih =>
    intro s e hs he
    have hinside := ih .opening .closing (.inl rfl) (.inl rfl)
    refine List.IsChain.cons_cons ⟨fun _ h => h.ne_opening rfl, fun _ => hs,
      fun h => absurd h hs.ne_closing⟩ ?_
    refine hinside.append (.singleton e) fun t ht u hu => ?_
    rw [List.getLast?_concat] at ht
    obtain rfl := Option.some.inj ht
    obtain rfl : e = u := by simpa using hu
    exact ⟨fun h => absurd rfl h.ne_closing, fun h => absurd h he.ne_opening, fun _ => he⟩
  | oneFactor _ ih => exact ih
  | and _ _ ihl ihr => exact ihl.joined ihr ⟨.inr (.inl rfl), .inr (.inl rfl)⟩
  | oneConjunction _ ih => exact ih
  | or _ _ ihl ihr => exact ihl.joined ihr ⟨.inr (.inr rfl), .inr (.inr rfl)⟩

-- Where a bracket has been cut out, an operand is missing.
theorem Cut.not_chain {ts kept : List Token} (h : Cut ts kept) {s e : Token}
    (hts : (s :: ts ++ [e]).IsChain Neighbours) : ¬(s :: kept ++ [e]).IsChain Neighbours := by
  have hbracket {inner rest : List Token} {s : Token}
      (h : (s :: (.opening :: inner ++ .closing :: rest) ++ [e]).IsChain Neighbours) :
      s.Awaits ∧ ∀ t ∈ (rest ++ [e]).head?, t.Follows := by
    have hsplit : s :: (.opening :: inner ++ .closing :: rest) ++ [e] =
        (s :: .opening :: inner) ++ .closing :: (rest ++ [e]) := by simp
    rw [hsplit] at h
    have hright := (List.isChain_append.mp h).2.1
    exact ⟨(List.isChain_cons_cons.mp h).1.opening rfl,
      fun t ht => ((List.isChain_cons.mp hright).1 t ht).closing rfl⟩
  have hmissing {s t : Token} {us : List Token} (hs : s.Awaits) (ht : t.Follows) :
      ¬(s :: t :: us).IsChain Neighbours := fun h =>
    (List.isChain_cons_cons.mp h).1.operand hs ht
  induction h generalizing s with
  | one inner rest =>
    obtain ⟨hs, hnext⟩ := hbracket hts
    cases rest with
    | nil => exact hmissing hs (hnext e rfl)
    | cons t rest => exact hmissing hs (hnext t rfl)
  | more inner h ih =>
    obtain ⟨hs, hnext⟩ := hbracket hts
    -- what follows the bracket is no other one, so it has been kept
    cases h with
    | one inner rest => exact absurd rfl (hnext .opening rfl).ne_opening
    | more inner h => exact absurd rfl (hnext .opening rfl).ne_opening
    | later t h => exact hmissing hs (hnext t rfl)
  | later t h ih =>
    exact fun hkept => ih (List.isChain_cons.mp hts).2 (List.isChain_cons.mp hkept).2

theorem Derives.not_cut {inputs inputs' : List (Variable α)} {rank rank' : Rank}
    {ts kept : List Token} {c d : Condition} (h : Derives inputs rank ts c) (hcut : Cut ts kept) :
    ¬Derives inputs' rank' kept d := fun hkept =>
  hcut.not_chain (h.fits .opening .closing (.inl rfl) (.inl rfl))
    (hkept.fits .opening .closing (.inl rfl) (.inl rfl))

/-! ## Words cut out of a text -/

theorem ofText_append_blank {c : Char} (h : isBlank c = true) (p rest : List Char) :
    Token.ofText (p ++ c :: rest) = Token.ofText p ++ Token.ofText rest :=
  scan_append [c] (fun begun => scan_blank h begun rest) [] p

theorem ofText_trimLeft (cs : List Char) : Token.ofText (trimLeft cs) = Token.ofText cs := by
  induction cs with
  | nil => rfl
  | cons c cs ih =>
    by_cases h : isBlank c = true
    · rw [trimLeft_cons_of_blank h, ih]
      exact (ofText_append_blank h [] cs).symm
    · unfold trimLeft
      rw [List.dropWhile_cons_of_neg h]

theorem ofText_afterWord? {word cs rest : List Char} (h : afterWord? word cs = some rest)
    (p : List Char) :
    Token.ofText (p ++ cs) = Token.ofText p ++ Token.ofText word ++ Token.ofText rest := by
  unfold afterWord? at h
  split at h
  · cases h
  · rename_i c cs
    by_cases hc : isBlank c = true
    · rw [if_pos hc] at h
      split at h
      · rename_i b tail hafter
        split_ifs at h with hb
        obtain rfl := Option.some.inj h
        have hword := eq_append_of_after? hafter
        rw [trimLeft_cons_of_blank hc] at hword
        rw [ofText_append_blank hc, ← ofText_trimLeft cs, hword, ofText_append_blank hb.1,
          ofText_trimLeft, List.append_assoc]
      · cases h
    · rw [if_neg hc] at h
      cases h

theorem ofText_splitAtWord? {word cs before rest : List Char}
    (h : splitAtWord? word cs = some (before, rest)) (p : List Char) :
    Token.ofText (p ++ cs) =
      Token.ofText (p ++ before) ++ Token.ofText word ++ Token.ofText rest := by
  induction cs generalizing before p with
  | nil => cases h
  | cons c cs ih =>
    rw [splitAtWord?] at h
    have hcons : p ++ c :: cs = p ++ [c] ++ cs := by simp
    rw [hcons]
    split at h
    · rename_i hafter
      obtain ⟨rfl, rfl⟩ := Prod.mk.inj (Option.some.inj h)
      exact ofText_afterWord? hafter (p ++ [c])
    · obtain ⟨⟨before', rest'⟩, hsplit, heq⟩ := Option.map_eq_some_iff.mp h
      obtain ⟨rfl, rfl⟩ := Prod.mk.inj heq
      rw [ih hsplit (p ++ [c]), List.append_assoc p, List.singleton_append]

-- Where a word stands once, the tokens before it are known.
theorem eq_of_append_cons {t : Token} {as bs cs ds : List Token}
    (h : as ++ t :: bs = cs ++ t :: ds) (hc : t ∉ cs) (hd : t ∉ ds) : as = cs := by
  have ha : t ∉ as := by
    have hcount := congrArg (List.count t) h
    simp only [List.count_append, List.count_cons_self, List.count_eq_zero_of_not_mem hc,
      List.count_eq_zero_of_not_mem hd] at hcount
    exact List.count_eq_zero.mp (by omega)
  have hbefore {xs ys : List Token} (hxs : t ∉ xs) :
      (xs ++ t :: ys).takeWhile (· ≠ t) = xs := by
    rw [List.takeWhile_append_of_pos fun x hx => by simpa using ne_of_mem_of_not_mem hx hxs]
    simp
  calc as = (as ++ t :: bs).takeWhile (· ≠ t) := (hbefore ha).symm
    _ = (cs ++ t :: ds).takeWhile (· ≠ t) := by rw [h]
    _ = cs := hbefore hc

-- The parts of a rule lie on either side of a `THEN`, unless there is nothing to read before it.
theorem ofText_ruleParts? {number : Nat} {body condition conclusion : List Char}
    (h : ruleParts? (ruleHead number ++ body) = some (condition, conclusion)) :
    Token.ofText condition = [] ∨ Token.ofText body =
      Token.ofText condition ++ .word "THEN" :: Token.ofText conclusion := by
  unfold ruleParts? at h
  rw [ruleBody?_append, List.takeWhile_cons_of_pos (by decide)] at h
  dsimp only at h
  rw [if_neg (by simp)] at h
  split at h
  · rename_i hsplit
    obtain rfl := Option.some.inj h
    have htokens := ofText_splitAtWord? hsplit []
    have hsame : Token.ofText ((' ' :: body).dropWhile isBlank) = Token.ofText body :=
      (ofText_trimLeft (' ' :: body)).trans (ofText_append_space [] body)
    rw [List.nil_append, hsame, List.append_assoc] at htokens
    exact .inr htokens
  · -- only a blank is left for the condition
    split at h
    · obtain ⟨rest, -, heq⟩ := Option.map_eq_some_iff.mp h
      obtain ⟨rfl, -⟩ := Prod.mk.inj heq
      exact .inl rfl
    · cases h

-- The condition of a rule that is read has the tokens in front of the only `THEN`.
theorem derives_of_readRule [Scalar α] {c : Controller α} {number : Nat} {body : List Char}
    {r : Rule α} {ts us : List Token} (hread : readRule c (ruleHead number ++ body) = .ok r)
    (hbody : Token.ofText body = ts ++ .word "THEN" :: us) (hts : .word "THEN" ∉ ts)
    (hus : .word "THEN" ∉ us) : Derives c.inputs .disjunction ts r.condition := by
  unfold readRule at hread
  split at hread
  · cases hread
  · rename_i condition conclusion hparts
    obtain ⟨read, hcondition, h⟩ := bind_eq_ok.mp hread
    obtain ⟨_, -, h⟩ := bind_eq_ok.mp h
    obtain rfl := Except.ok.inj h
    rcases ofText_ruleParts? hparts with hnil | htokens
    · rw [hnil] at hcondition
      cases hcondition
    · have hfront : Token.ofText condition = ts :=
        eq_of_append_cons (htokens.symm.trans hbody) hts hus
      rw [hfront] at hcondition
      exact readCondition_eq_ok_iff_derives.mp hcondition

/-! ## Conditions without comments -/

/-- No comment begins in the text, nor with a bracket in front of it. -/
def CanOpen (text : String) : Prop := Quiet text.toList ∧ text.toList.head? ≠ some '*'

theorem CanOpen.bracketedIf {text : String} (h : CanOpen text) (needed : Bool) :
    CanOpen (bracketedIf needed text) := by
  obtain ⟨hquiet, hstar⟩ := h
  cases needed with
  | false => exact ⟨hquiet, hstar⟩
  | true =>
    have htext : (Fcl.bracketedIf true text).toList = '(' :: (text.toList ++ [')']) := by
      simp [Fcl.bracketedIf, String.toList_append]
    have hclosed : Quiet (text.toList ++ [')']) := by
      refine hquiet.append (.singleton _) fun c _ d hd => ?_
      obtain rfl : ')' = d := by simpa using hd
      exact ⟨fun h => absurd h.2 (by decide), fun h => absurd h.2 (by decide)⟩
    unfold CanOpen
    rw [htext]
    refine ⟨hclosed.cons fun d hd => ⟨?_, fun h => absurd h.1 (by decide)⟩, by simp⟩
    rintro ⟨-, rfl⟩
    cases hcs : text.toList with
    | nil => simp [hcs] at hd
    | cons d cs =>
      rw [hcs] at hd hstar
      exact hstar hd

theorem CanOpen.joined {left right joint word : String} (hleft : CanOpen left)
    (hright : Quiet right.toList) (hword : Quiet word.toList)
    (hjoint : joint.toList = ' ' :: word.toList ++ [' ']) : CanOpen (left ++ joint ++ right) := by
  have htext : (left ++ joint ++ right).toList =
      left.toList ++ ' ' :: (word.toList ++ ' ' :: right.toList) := by
    simp [String.toList_append, hjoint]
  obtain ⟨hquiet, hstar⟩ := hleft
  unfold CanOpen
  rw [htext]
  refine ⟨quiet_append_space.mpr ⟨hquiet, quiet_append_space.mpr ⟨hword, hright⟩⟩, ?_⟩
  cases hcs : left.toList with
  | nil => simp
  | cons d cs =>
    rw [hcs] at hstar
    exact hstar

-- If no name begins with a star, no comment begins in a written condition.
theorem canOpen_conditionText {c : Controller α} {condition : Condition} {text : String}
    (htext : conditionText c condition = .ok text) (hnames : ∀ v ∈ c.inputs, v.Named)
    (hstar : ∀ v ∈ c.inputs, v.name.toList.head? ≠ some '*') : CanOpen text := by
  have hand : Quiet "AND".toList := quiet_of_not_mem (by decide) (by decide)
  have hor : Quiet "OR".toList := quiet_of_not_mem (by decide) (by decide)
  have his : Quiet "IS".toList := quiet_of_not_mem (by decide) (by decide)
  have hisNot : Quiet "IS NOT".toList := quiet_of_not_mem (by decide) (by decide)
  induction condition generalizing text with
  | is leaf =>
    obtain ⟨v, t, hfind, -, -, hname, hterm, rfl⟩ :=
      exists_of_comparisonText htext (leaf.named hnames)
    have hv : v.name = leaf.name := by simpa using List.find?_some hfind
    have hfront : CanOpen leaf.name := by
      have hquiet := hname.quiet
      rw [spaced_spacedWords] at hquiet
      exact ⟨hquiet, hv ▸ hstar v (List.mem_of_find?_eq_some hfind)⟩
    have hback : Quiet t.name.toList := by
      have hquiet := hterm.quiet
      rwa [spaced_spacedWords] at hquiet
    cases leaf.negated with
    | false => exact hfront.joined hback his rfl
    | true => exact hfront.joined hback hisNot rfl
  | and l r ihl ihr =>
    obtain ⟨left, hleft, h⟩ := bind_eq_ok.mp htext
    obtain ⟨right, hright, h⟩ := bind_eq_ok.mp h
    obtain rfl := Except.ok.inj h
    exact ((ihl hleft).bracketedIf _).joined ((ihr hright).bracketedIf _).1 hand rfl
  | or l r ihl ihr =>
    obtain ⟨left, hleft, h⟩ := bind_eq_ok.mp htext
    obtain ⟨right, hright, h⟩ := bind_eq_ok.mp h
    obtain rfl := Except.ok.inj h
    exact (ihl hleft).joined ((ihr hright).bracketedIf _).1 hor rfl

/-! ## Conclusions without brackets -/

section Rules

variable [Scalar α] [Scalar.PlainText α]

theorem plain_conclusionPieces {name term : String} {weight : α}
    (hname : Admitted (spacedWords name.toList)) (hterm : Admitted (spacedWords term.toList))
    (hweight : Scalar.Legible weight) : ∀ p ∈ conclusionPieces name term weight,
      (∀ c ∈ p, Token.isWordChar c = true) ∧ p ≠ "THEN".toList := by
  have hwords {words : List (List Char)} (h : Admitted words) :
      ∀ p ∈ words, (∀ c ∈ p, Token.isWordChar c = true) ∧ p ≠ "THEN".toList := fun p hp =>
    ⟨h.wordChars p hp, fun heq => h.unreserved p hp (by rw [heq]; decide)⟩
  have hnumber : (∀ c ∈ (Scalar.text weight).toList, Token.isWordChar c = true) ∧
      (Scalar.text weight).toList ≠ "THEN".toList := by
    constructor
    · intro c hc
      have hblank := Scalar.PlainText.not_blank weight c hc
      have hopening : c ≠ '(' := fun h => hweight.not_mem (by decide) (h ▸ hc)
      have hclosing : c ≠ ')' := fun h => hweight.not_mem (by decide) (h ▸ hc)
      simp [Token.isWordChar, hblank, hopening, hclosing]
    · intro heq
      have hletter : 'H' ∉ (Scalar.text weight).toList := hweight.not_mem (by decide)
      rw [heq] at hletter
      exact hletter (by decide)
  unfold conclusionPieces weightPieces
  refine List.forall_mem_append.mpr ⟨hwords hname, List.forall_mem_cons.mpr ⟨by decide,
    List.forall_mem_append.mpr ⟨hwords hterm, ?_⟩⟩⟩
  split
  · simp
  · exact List.forall_mem_cons.mpr ⟨by decide, List.forall_mem_singleton.mpr hnumber⟩

-- The text of a conclusion holds no bracket and no second `THEN`.
theorem conclusionText_plain {c : Controller α} {conclusion : Conclusion α} {text : String}
    (htext : conclusionText c conclusion = .ok text)
    (hnames : ∀ o ∈ c.outputs, o.toVariable.Named) (hweight : Scalar.Legible conclusion.weight) :
    ')' ∉ text.toList ∧ .word "THEN" ∉ Token.ofText text.toList := by
  obtain ⟨o, t, -, -, -, hname, hterm, hpieces⟩ := exists_conclusionPieces htext hnames
  have hplain := plain_conclusionPieces hname hterm hweight
  have hchars : ∀ c ∈ text.toList, c = ' ' ∨ Token.isWordChar c = true := by
    rw [hpieces]
    intro c hc
    exact (mem_spaced hc).imp_right fun ⟨p, hp, hc⟩ => (hplain p hp).1 c hc
  refine ⟨fun h => absurd (hchars _ h) (by decide), ?_⟩
  rw [hpieces, ofText_spaced]
  intro hmem
  obtain ⟨p, hp, hthen⟩ := List.mem_flatMap.mp hmem
  have hpiece := (pieces_conclusionPieces hname hterm hweight p hp).1
  rw [ofText_word hpiece.1 (hplain p hp).1, List.mem_singleton] at hthen
  refine (hplain p hp).2 ?_
  rw [Token.word.inj hthen, String.toList_ofList]

/-! ## Rules with a comment -/

theorem dropComments_ruleHead (number : Nat) (body : List Char) :
    dropComments ('\t' :: (ruleHead number ++ body)) =
      '\t' :: (ruleHead number ++ dropComments body) := by
  have hnumber : '(' ∉ number.repr.toList := fun h =>
    absurd (isDigit_of_mem_repr number _ h) (by decide)
  have hhead : '(' ∉ '\t' :: ruleHead number := by
    unfold ruleHead
    simp only [List.mem_cons, List.mem_append, not_or]
    exact ⟨by decide, ⟨by decide, hnumber⟩, by decide⟩
  exact dropComments_append_left hhead body

theorem unslashed_ruleHead {number : Nat} {body : List Char} (h : Unslashed body) :
    Unslashed (ruleHead number ++ body) := by
  have hnumber : Unslashed number.repr.toList := by
    refine (quiet_of_not_mem (fun h => ?_) fun h => ?_).unslashed
    · exact absurd (isDigit_of_mem_repr number _ h) (by decide)
    · exact absurd (isDigit_of_mem_repr number _ h) (by decide)
  have hwords : Unslashed "RULE".toList ∧ Unslashed [':'] ∧ Unslashed "IF".toList :=
    ⟨(quiet_of_not_mem (by decide) (by decide)).unslashed,
      (quiet_of_not_mem (by decide) (by decide)).unslashed,
      (quiet_of_not_mem (by decide) (by decide)).unslashed⟩
  have hspaces : ruleHead number ++ body = "RULE".toList ++ ' ' :: (number.repr.toList ++
      ' ' :: ([':'] ++ ' ' :: ("IF".toList ++ ' ' :: body))) := by
    simp [ruleHead]
  rw [hspaces, unslashed_append_space, unslashed_append_space, unslashed_append_space,
    unslashed_append_space]
  exact ⟨hwords.1, hnumber, hwords.2.1, hwords.2.2, h⟩

/-- What stands behind the head of a written rule. -/
def ruleTail (condition conclusion : List Char) : List Char :=
  condition ++ ' ' :: ("THEN".toList ++ ' ' :: conclusion)

theorem ofText_ruleTail (condition conclusion : List Char) :
    Token.ofText (ruleTail condition conclusion) =
      Token.ofText condition ++ .word "THEN" :: Token.ofText conclusion := by
  unfold ruleTail
  rw [ofText_append_space, ofText_append_space]
  rfl

-- Comments of a rule are those of its condition.
theorem dropComments_rule (number : Nat) (condition : List Char) {conclusion : List Char}
    (hclosing : ')' ∉ conclusion) :
    dropComments ('\t' :: (ruleHead number ++ ruleTail condition conclusion) ++ [';']) =
      '\t' :: (ruleHead number ++ ruleTail (dropComments condition) conclusion) ++ [';'] := by
  have htail : ∀ cs, '\t' :: (ruleHead number ++ ruleTail cs conclusion) ++ [';'] =
      '\t' :: (ruleHead number ++
        (cs ++ (' ' :: ("THEN".toList ++ ' ' :: conclusion) ++ [';']))) := by
    intro cs
    simp [ruleTail]
  rw [htail, htail, dropComments_ruleHead, dropComments_append_right _
    (afterComment?_of_not_mem (by simp [hclosing])) (by simp) (by simp)]

-- The statement of a written rule, once the comments of its condition are gone.
theorem ofRaw_rule (number : Nat) {condition : List Char} (hcondition : Unslashed condition)
    {conclusion : List (List Char)} (hpieces : ∀ p ∈ conclusion, IsPiece p ∧ Quiet p)
    (hne : conclusion ≠ []) {raw : List Char}
    (hraw : dropComments raw =
      '\t' :: (ruleHead number ++ ruleTail condition (spaced conclusion)) ++ [';']) (n : Nat) :
    (Line.ofRaw n raw).content.isEmpty = false ∧ (Line.ofRaw n raw).keyword = "RULE" ∧
      (Line.ofRaw n raw).statement =
        .ok (ruleHead number ++ ruleTail condition (spaced conclusion)) := by
  have hword : IsKeyword "RULE".toList := by decide
  have hthen : Unslashed "THEN".toList := (quiet_of_not_mem (by decide) (by decide)).unslashed
  have hconclusion : Unslashed (spaced conclusion) :=
    unslashed_spaced.mpr fun p hp => (hpieces p hp).2.unslashed
  have hunslashed : Unslashed (ruleHead number ++ ruleTail condition (spaced conclusion)) := by
    refine unslashed_ruleHead ?_
    unfold ruleTail
    rw [unslashed_append_space, unslashed_append_space]
    exact ⟨hcondition, hthen, hconclusion⟩
  obtain ⟨hcontent, hkeyword, hstatement⟩ := ofRaw_stripped hword
    (show beforeSlashes (dropComments raw) = '\t' :: ("RULE".toList ++ ' ' ::
      (number.repr.toList ++ " : IF ".toList ++ ruleTail condition (spaced conclusion)) ++ [';']) by
      rw [hraw, beforeSlashes_of_unslashed (unslashed_statement hunslashed)]
      rfl) n
  refine ⟨hcontent, hkeyword, ?_⟩
  -- the statement ends in a piece of the conclusion, so it has no margin
  have hshape : ruleHead number ++ ruleTail condition (spaced conclusion) =
      "RULE".toList ++ (' ' :: (number.repr.toList ++ " : IF ".toList ++
        (condition ++ ' ' :: ("THEN".toList ++ [' '])))) ++ spaced conclusion := by
    simp [ruleHead, ruleTail]
  have htrim : trim (ruleHead number ++ ruleTail condition (spaced conclusion)) =
      ruleHead number ++ ruleTail condition (spaced conclusion) := by
    rw [hshape]
    exact trim_append_spaced hword.isPiece (fun p hp => (hpieces p hp).1) hne _
  rw [hstatement]
  exact congrArg Except.ok htrim

theorem toList_ruleLine (number : Nat) (condition conclusion : String) :
    ("\tRULE " ++ toString number ++ " : IF " ++ condition ++ " THEN " ++ conclusion ++
      ";").toList =
      '\t' :: (ruleHead number ++ ruleTail condition.toList conclusion.toList) ++ [';'] := by
  simp [ruleHead, ruleTail, String.toList_append]

-- A written rule with a comment in its line is refused.
theorem refuses_commented {c : Controller α} {r : Rule α} {line : String} {number : Nat}
    (hline : ruleLine c number r = .ok line) (hinputs : ∀ v ∈ c.inputs, v.Named)
    (houtputs : ∀ o ∈ c.outputs, o.toVariable.Named)
    (hweight : Scalar.Legible r.conclusion.weight) (hcomment : ¬Uncommented line.toList) (n : Nat) :
    ∃ statement, (Line.ofRaw n line.toList).content.isEmpty = false ∧
      (Line.ofRaw n line.toList).keyword = "RULE" ∧
      (Line.ofRaw n line.toList).statement = .ok statement ∧
      ∀ (d : Controller α) (s : Rule α), readRule d statement ≠ .ok s := by
  obtain ⟨condition, hcondition, h⟩ := bind_eq_ok.mp hline
  obtain ⟨conclusion, hconclusion, h⟩ := bind_eq_ok.mp h
  obtain rfl := Except.ok.inj h
  obtain ⟨tokens, ⟨ps, hps, hwritable, htokens⟩, hderives⟩ :=
    writes_of_conditionText hcondition fun leaf _ => leaf.named hinputs
  obtain ⟨hclosing, hthen⟩ := conclusionText_plain hconclusion houtputs hweight
  obtain ⟨o, t, -, -, -, hname, hterm, hpieces⟩ :=
    exists_conclusionPieces hconclusion houtputs
  have hqs := pieces_conclusionPieces hname hterm hweight
  have hunslashed := unslashed_spaced.mpr hwritable.unslashed
  have hnothen := hwritable.noThen
  rw [← ofText_spaced, ← hps] at htokens hnothen
  rw [← hps] at hunslashed
  have hdropped := dropComments_rule number condition.toList hclosing
  rw [toList_ruleLine] at hcomment ⊢
  have hcut : Cut tokens (Token.ofText (dropComments condition.toList)) := by
    rcases uncommented_or_cut condition.toList [] with h | h
    · refine absurd ?_ hcomment
      unfold Uncommented at h ⊢
      rw [hdropped, h]
    · rwa [List.nil_append, htokens] at h
  rw [htokens] at hnothen
  rw [hpieces] at hdropped ⊢
  obtain ⟨hcontent, hkeyword, hstatement⟩ := ofRaw_rule number (unslashed_dropComments hunslashed)
    hqs (by simp [conclusionPieces]) hdropped n
  refine ⟨_, hcontent, hkeyword, hstatement, fun d s hread => ?_⟩
  -- what would have been read has lost an operand
  rw [← hpieces] at hread
  exact hderives.not_cut hcut (derives_of_readRule hread (ofText_ruleTail _ _)
    (fun hmem => hnothen (hcut.subset hmem)) hthen)

-- The line of a rule holds a comment if its condition does.
theorem uncommented_ruleLine {c : Controller α} {r : Rule α} {line : String} {number : Nat}
    (hline : ruleLine c number r = .ok line) (houtputs : ∀ o ∈ c.outputs, o.toVariable.Named)
    (hweight : Scalar.Legible r.conclusion.weight) : Uncommented line.toList ↔
      ∀ text, conditionText c r.condition = .ok text → Uncommented text.toList := by
  obtain ⟨condition, hcondition, h⟩ := bind_eq_ok.mp hline
  obtain ⟨conclusion, hconclusion, h⟩ := bind_eq_ok.mp h
  obtain rfl := Except.ok.inj h
  obtain ⟨hclosing, -⟩ := conclusionText_plain hconclusion houtputs hweight
  have hdropped := dropComments_rule number condition.toList hclosing
  unfold Uncommented
  rw [toList_ruleLine, hdropped]
  constructor
  · intro h text htext
    obtain rfl : condition = text := Except.ok.inj (hcondition.symm.trans htext)
    simpa [ruleTail] using h
  · intro h
    rw [h condition hcondition]

end Rules

end FuzzyInference.Fcl
