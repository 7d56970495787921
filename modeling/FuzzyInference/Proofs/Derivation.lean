import FuzzyInference.Proofs.ConditionGrammar

/-!
# Derivations of conditions

A derivation is kept here as a tree with one node for each use of a production, so that two
derivations of the same tokens can be told apart.  There are never two: every operand is cut off
where the joint behind it stands.
-/

namespace FuzzyInference.Fcl

variable {α : Type} {inputs : List (Variable α)}

/-- A derivation of a rank.  The words of a comparison can name what they have to name. -/
inductive Derivation : Rank → Type where
  | comparison {name term : List String} {negated : Bool} (hname : CanNameVariable name)
    (hterm : CanNameTerm negated term) : Derivation .factor
  | brackets (inner : Derivation .disjunction) : Derivation .factor
  | oneFactor (only : Derivation .factor) : Derivation .conjunction
  | and (left : Derivation .conjunction) (right : Derivation .factor) : Derivation .conjunction
  | oneConjunction (only : Derivation .conjunction) : Derivation .disjunction
  | or (left : Derivation .disjunction) (right : Derivation .conjunction) :
    Derivation .disjunction

namespace Derivation

/-- The derived tokens. -/
def tokens : {rank : Rank} → Derivation rank → List Token
  | _, @comparison name term negated _ _ => comparisonTokens name negated term
  | _, brackets inner => .opening :: inner.tokens ++ [.closing]
  | _, oneFactor only => only.tokens
  | _, and left right => left.tokens ++ .word "AND" :: right.tokens
  | _, oneConjunction only => only.tokens
  | _, or left right => left.tokens ++ .word "OR" :: right.tokens

/-- The condition that a derivation stands for: each comparison is one of an input variable with
the first of its terms of the name. -/
def StandsFor (inputs : List (Variable α)) : {rank : Rank} → Derivation rank → Condition → Prop
  | _, @comparison name term negated _ _, c =>
    ∃ v i, inputs.find? (·.name == joined name) = some v ∧ v.termIndex? (joined term) = some i ∧
      c = .is ⟨joined name, i, negated⟩
  | _, brackets inner, c => inner.StandsFor inputs c
  | _, oneFactor only, c => only.StandsFor inputs c
  | _, and left right, c =>
    ∃ l r, left.StandsFor inputs l ∧ right.StandsFor inputs r ∧ c = .and l r
  | _, oneConjunction only, c => only.StandsFor inputs c
  | _, or left right, c =>
    ∃ l r, left.StandsFor inputs l ∧ right.StandsFor inputs r ∧ c = .or l r

theorem derives_of_standsFor {rank : Rank} {t : Derivation rank} {c : Condition}
    (h : t.StandsFor inputs c) : Derives inputs rank t.tokens c := by
  induction t generalizing c with
  | comparison hname hterm =>
    obtain ⟨v, i, hfind, hindex, rfl⟩ := h
    exact .comparison hname hterm hfind hindex
  | brackets inner ih => exact .brackets (ih h)
  | oneFactor only ih => exact .oneFactor (ih h)
  | and left right ihl ihr =>
    obtain ⟨l, r, hl, hr, rfl⟩ := h
    exact .and (ihl hl) (ihr hr)
  | oneConjunction only ih => exact .oneConjunction (ih h)
  | or left right ihl ihr =>
    obtain ⟨l, r, hl, hr, rfl⟩ := h
    exact .or (ihl hl) (ihr hr)

theorem exists_of_derives {rank : Rank} {ts : List Token} {c : Condition}
    (h : Derives inputs rank ts c) :
    ∃ t : Derivation rank, t.tokens = ts ∧ t.StandsFor inputs c := by
  induction h with
  | @comparison name term negated v i hname hterm hfind hindex =>
    exact ⟨comparison hname hterm, rfl, v, i, hfind, hindex, rfl⟩
  | brackets _ ih =>
    obtain ⟨t, rfl, ht⟩ := ih
    exact ⟨brackets t, rfl, ht⟩
  | oneFactor _ ih =>
    obtain ⟨t, rfl, ht⟩ := ih
    exact ⟨oneFactor t, rfl, ht⟩
  | and _ _ ihl ihr =>
    obtain ⟨l, rfl, hl⟩ := ihl
    obtain ⟨r, rfl, hr⟩ := ihr
    exact ⟨and l r, rfl, _, _, hl, hr, rfl⟩
  | oneConjunction _ ih =>
    obtain ⟨t, rfl, ht⟩ := ih
    exact ⟨oneConjunction t, rfl, ht⟩
  | or _ _ ihl ihr =>
    obtain ⟨l, rfl, hl⟩ := ihl
    obtain ⟨r, rfl, hr⟩ := ihr
    exact ⟨or l r, rfl, _, _, hl, hr, rfl⟩

theorem derives_iff {rank : Rank} {ts : List Token} {c : Condition} :
    Derives inputs rank ts c ↔ ∃ t : Derivation rank, t.tokens = ts ∧ t.StandsFor inputs c := by
  constructor
  · exact exists_of_derives
  · rintro ⟨t, rfl, ht⟩
    exact derives_of_standsFor ht

/-! ## Operands of a joint -/

/-- The first factor of a conjunction and the further ones, from left to right. -/
def factors : Derivation .conjunction → Derivation .factor × List (Derivation .factor)
  | oneFactor only => (only, [])
  | and left right => (left.factors.1, left.factors.2 ++ [right])

/-- The first conjunction of a disjunction and the further ones, from left to right. -/
def conjunctions :
    Derivation .disjunction → Derivation .conjunction × List (Derivation .conjunction)
  | oneConjunction only => (only, [])
  | or left right => (left.conjunctions.1, left.conjunctions.2 ++ [right])

theorem factors_injective {t u : Derivation .conjunction} (h : t.factors = u.factors) : t = u := by
  match t, u with
  | oneFactor f, oneFactor g =>
    rw [factors, factors] at h
    rw [(Prod.mk.inj h).1]
  | oneFactor f, and l r => simp [factors] at h
  | and l r, oneFactor g => simp [factors] at h
  | and l r, and l' r' =>
    rw [factors, factors] at h
    obtain ⟨hfirst, hmore⟩ := Prod.mk.inj h
    obtain ⟨hmore, hlast⟩ := List.append_inj' hmore rfl
    rw [factors_injective (Prod.ext hfirst hmore), (List.cons.inj hlast).1]

theorem conjunctions_injective {t u : Derivation .disjunction}
    (h : t.conjunctions = u.conjunctions) : t = u := by
  match t, u with
  | oneConjunction f, oneConjunction g =>
    rw [conjunctions, conjunctions] at h
    rw [(Prod.mk.inj h).1]
  | oneConjunction f, or l r => simp [conjunctions] at h
  | or l r, oneConjunction g => simp [conjunctions] at h
  | or l r, or l' r' =>
    rw [conjunctions, conjunctions] at h
    obtain ⟨hfirst, hmore⟩ := Prod.mk.inj h
    obtain ⟨hmore, hlast⟩ := List.append_inj' hmore rfl
    rw [conjunctions_injective (Prod.ext hfirst hmore), (List.cons.inj hlast).1]

/-- The tokens of operands, each behind the word that joins it. -/
def joinedTokens {ι : Type} (word : String) (tokens : ι → List Token) (operands : List ι) :
    List Token :=
  operands.flatMap fun x => .word word :: tokens x

theorem tokens_eq_factors (t : Derivation .conjunction) :
    t.tokens = t.factors.1.tokens ++ joinedTokens "AND" tokens t.factors.2 := by
  match t with
  | oneFactor only => simp [tokens, factors, joinedTokens]
  | and left right => simp [tokens, factors, joinedTokens, tokens_eq_factors left]

theorem tokens_eq_conjunctions (t : Derivation .disjunction) :
    t.tokens = t.conjunctions.1.tokens ++ joinedTokens "OR" tokens t.conjunctions.2 := by
  match t with
  | oneConjunction only => simp [tokens, conjunctions, joinedTokens]
  | or left right => simp [tokens, conjunctions, joinedTokens, tokens_eq_conjunctions left]

/-! ## Cutting off -/

/-- The tokens of `x` can be cut off in one way only where something in `ends` follows them. -/
def CutsOff {ι : Type} (tokens : ι → List Token) (ends : List Token → Prop) (x : ι) : Prop :=
  ∀ y rest rest', ends rest → ends rest' → tokens x ++ rest = tokens y ++ rest' →
    x = y ∧ rest = rest'

/-- What ends an operand, but does not join a further one to it. -/
def EndsAll (ends : List Token → Prop) (word : String) (rest : List Token) : Prop :=
  ends rest ∧ rest.head? ≠ some (.word word)

-- Operands that can be cut off one by one can be cut off together.
theorem cutsOff_operands {ι : Type} {tokens : ι → List Token} {ends : List Token → Prop}
    {word : String} (hword : ∀ rest, ends (.word word :: rest)) {x y : ι} {xs ys : List ι}
    {rest rest' : List Token} (hx : CutsOff tokens ends x) (hxs : ∀ z ∈ xs, CutsOff tokens ends z)
    (hrest : EndsAll ends word rest) (hrest' : EndsAll ends word rest')
    (h : tokens x ++ (joinedTokens word tokens xs ++ rest) =
      tokens y ++ (joinedTokens word tokens ys ++ rest')) :
    (x, xs) = (y, ys) ∧ rest = rest' := by
  -- whatever follows the first operand ends it, be it a joint or the rest
  have hends : ∀ (zs : List ι) (r : List Token),
      ends r → ends (joinedTokens word tokens zs ++ r) := by
    intro zs r hr
    cases zs with
    | nil => exact hr
    | cons z zs => exact hword _
  obtain ⟨rfl, htail⟩ := hx y _ _ (hends xs rest hrest.1) (hends ys rest' hrest'.1) h
  -- the first operands agree; on the operands behind them
  clear h hx
  induction xs generalizing ys with
  | nil =>
    cases ys with
    | nil => exact ⟨rfl, htail⟩
    | cons z zs => exact absurd (by rw [show rest = _ from htail]; rfl) hrest.2
  | cons w ws ih =>
    cases ys with
    | nil => exact absurd (by rw [← show _ = rest' from htail]; rfl) hrest'.2
    | cons z zs =>
      have hstep : tokens w ++ (joinedTokens word tokens ws ++ rest) =
          tokens z ++ (joinedTokens word tokens zs ++ rest') := by
        simpa [joinedTokens] using htail
      obtain ⟨rfl, htail'⟩ := hxs w (by simp) z _ _ (hends ws rest hrest.1)
        (hends zs rest' hrest'.1) hstep
      obtain ⟨heq, hr⟩ := ih (fun v hv => hxs v (by simp [hv])) htail'
      exact ⟨by rw [(Prod.mk.inj heq).2], hr⟩

theorem comparison_cutsOff {name term : List String} {negated : Bool}
    (hname : CanNameVariable name) (hterm : CanNameTerm negated term) :
    CutsOff tokens EndsName (comparison hname hterm) := by
  intro u rest rest' hrest hrest' h
  match u with
  | @comparison name' term' negated' hname' hterm' =>
    -- the three readers of the parts find the same in both texts
    have split : ∀ (n t : List String) (b : Bool) (r : List Token),
        comparisonTokens n b t ++ r = n.map .word ++ .word "IS" ::
          ((if b then [.word "NOT"] else []) ++ (t.map .word ++ r)) := by
      intro n t b r
      simp [comparisonTokens]
    rw [tokens, tokens, split, split] at h
    have hleft := congrArg variableWords h
    rw [variableWords_append_is hname.2, variableWords_append_is hname'.2] at hleft
    obtain ⟨rfl, hbehindName⟩ := Prod.mk.inj hleft
    have hsign := congrArg negation (List.cons.inj hbehindName).2
    rw [negation_termTokens hterm, negation_termTokens hterm'] at hsign
    obtain ⟨rfl, hbehindSign⟩ := Prod.mk.inj hsign
    have hright := congrArg termWords hbehindSign
    rw [termWords_append hterm.2.1 hrest, termWords_append hterm'.2.1 hrest'] at hright
    obtain ⟨rfl, rfl⟩ := Prod.mk.inj hright
    exact ⟨rfl, rfl⟩
  | brackets inner =>
    -- a comparison begins with a word, never with a bracket
    have := head?_comparisonTokens_ne_opening hname negated term rest
    rw [show comparisonTokens name negated term ++ rest = _ from h] at this
    exact absurd rfl this

/-- Every factor inside a derivation can be cut off. -/
def FactorsCutOff : {rank : Rank} → Derivation rank → Prop
  | .factor, t => CutsOff tokens EndsName t
  | .conjunction, t => ∀ f ∈ t.factors.1 :: t.factors.2, CutsOff tokens EndsName f
  | .disjunction, t => ∀ c ∈ t.conjunctions.1 :: t.conjunctions.2,
    ∀ f ∈ c.factors.1 :: c.factors.2, CutsOff tokens EndsName f

theorem conjunction_cutsOff {t : Derivation .conjunction} (h : FactorsCutOff t) :
    CutsOff tokens (EndsAll EndsName "AND") t := by
  intro u rest rest' hrest hrest' htokens
  rw [tokens_eq_factors, tokens_eq_factors, List.append_assoc, List.append_assoc] at htokens
  obtain ⟨hfactors, hr⟩ := cutsOff_operands endsName_and (h _ (by simp))
    (fun f hf => h f (by simp [hf])) hrest hrest' htokens
  exact ⟨factors_injective hfactors, hr⟩

theorem disjunction_cutsOff {t : Derivation .disjunction} (h : FactorsCutOff t) :
    CutsOff tokens (EndsAll (EndsAll EndsName "AND") "OR") t := by
  intro u rest rest' hrest hrest' htokens
  rw [tokens_eq_conjunctions, tokens_eq_conjunctions, List.append_assoc,
    List.append_assoc] at htokens
  have hor : ∀ r, EndsAll EndsName "AND" (.word "OR" :: r) := fun r => ⟨endsName_or r, by simp⟩
  obtain ⟨hconjunctions, hr⟩ := cutsOff_operands hor (conjunction_cutsOff (h _ (by simp)))
    (fun c hc => conjunction_cutsOff (h c (by simp [hc]))) hrest hrest' htokens
  exact ⟨conjunctions_injective hconjunctions, hr⟩

theorem factorsCutOff {rank : Rank} (t : Derivation rank) : FactorsCutOff t := by
  induction t with
  | comparison hname hterm => exact comparison_cutsOff hname hterm
  | brackets inner ih =>
    intro u rest rest' _ _ h
    -- a closing bracket ends a phrase of any rank
    have hclosing : ∀ r, EndsAll (EndsAll EndsName "AND") "OR" (.closing :: r) := fun r =>
      ⟨⟨endsName_closing r, by simp⟩, by simp⟩
    match u with
    | @comparison name term negated hname hterm =>
      have := head?_comparisonTokens_ne_opening hname negated term rest'
      rw [← show _ = comparisonTokens name negated term ++ rest' from h] at this
      exact absurd rfl this
    | brackets inner' =>
      have hinner : inner.tokens ++ .closing :: rest = inner'.tokens ++ .closing :: rest' := by
        simpa [tokens] using h
      obtain ⟨rfl, hrest⟩ := disjunction_cutsOff ih inner' _ _ (hclosing _) (hclosing _) hinner
      exact ⟨rfl, (List.cons.inj hrest).2⟩
  | oneFactor only ih => simpa [FactorsCutOff, factors] using ih
  | and left right ihl ihr =>
    intro f hf
    have : f ∈ left.factors.1 :: left.factors.2 ∨ f = right := by
      simpa [factors, or_assoc] using hf
    rcases this with hf | rfl
    · exact ihl f hf
    · exact ihr
  | oneConjunction only ih => simpa [FactorsCutOff, conjunctions] using ih
  | or left right ihl ihr =>
    intro c hc
    have : c ∈ left.conjunctions.1 :: left.conjunctions.2 ∨ c = right := by
      simpa [conjunctions, or_assoc] using hc
    rcases this with hc | rfl
    · exact ihl c hc
    · exact ihr

theorem tokens_injective {t u : Derivation .disjunction} (h : t.tokens = u.tokens) : t = u := by
  have hnil : EndsAll (EndsAll EndsName "AND") "OR" [] := ⟨⟨endsName_nil, by simp⟩, by simp⟩
  exact (disjunction_cutsOff (factorsCutOff t) u [] [] hnil hnil (by rw [h])).1

end Derivation

/-- Reading decides the grammar: a list of tokens is read as a condition exactly when it derives it,
there is one derivation then, and every other list is refused with a fault of its line. -/
theorem readCondition_decides (inputs : List (Variable α)) (tokens : List Token) :
    (∀ c, readCondition inputs tokens = .ok c ↔ Derives inputs .disjunction tokens c) ∧
      (∀ c, Derives inputs .disjunction tokens c →
        ∃ t : Derivation .disjunction, t.tokens = tokens ∧ t.StandsFor inputs c ∧
          ∀ u : Derivation .disjunction, u.tokens = tokens → u = t) ∧
      ((∀ c, ¬ Derives inputs .disjunction tokens c) →
        ∃ problem, ∀ line : Line, line.judge (readCondition inputs tokens) =
          .error (.unreadable line.number (String.ofList line.raw) problem)) := by
  refine ⟨fun c => readCondition_eq_ok_iff_derives, ?_, ?_⟩
  · intro c hc
    obtain ⟨t, rfl, ht⟩ := Derivation.derives_iff.mp hc
    exact ⟨t, rfl, ht, fun u hu => Derivation.tokens_injective hu⟩
  · intro hnone
    cases hread : readCondition inputs tokens with
    | error problem => exact ⟨problem, fun line => rfl⟩
    | ok c => exact absurd (readCondition_eq_ok_iff_derives.mp hread) (hnone c)

end FuzzyInference.Fcl
