import FuzzyInference.Fcl.Grammar
import FuzzyInference.Proofs.Outcomes

/-!
# The reader of conditions decides the grammar

Reading succeeds exactly on the tokens that the grammar derives, and answers with the condition that
they stand for.  No tokens have two derivations.
-/

namespace FuzzyInference.Fcl

variable {α : Type} {inputs : List (Variable α)}

/-! ## Steps of the reader without their length bounds -/

/-- What a step reads and leaves, or its problem. -/
def outcome {n : Nat} (result : Except Problem (Parsed n)) :
    Except Problem (Condition × List Token) :=
  result.map Subtype.val

theorem length_lt_of_outcome {n : Nat} {result : Except Problem (Parsed n)} {c : Condition}
    {rest : List Token} (h : outcome result = .ok (c, rest)) : rest.length < n := by
  cases result with
  | error problem => cases h
  | ok p =>
    have hp : p.val = (c, rest) := Except.ok.inj h
    have := p.property
    rwa [hp] at this

theorem outcome_readFactor_opening (rest : List Token) :
    outcome (readFactor inputs (.opening :: rest)) =
      match outcome (readDisjunction inputs rest) with
      | .error problem => .error problem
      | .ok (c, .closing :: tail) => .ok (c, tail)
      | .ok _ => .error .unbalancedCondition := by
  rw [readFactor]
  cases readDisjunction inputs rest with
  | error problem => rfl
  | ok p =>
    obtain ⟨⟨c, tail⟩, h⟩ := p
    cases tail with
    | nil => rfl
    | cons t tail => cases t <;> rfl

theorem readFactor_of_ne_opening {tokens : List Token} (h : tokens.head? ≠ some .opening) :
    readFactor inputs tokens = readComparison inputs tokens := by
  cases tokens with
  | nil => rw [readFactor]; simp
  | cons t rest =>
    cases t with
    | opening => simp at h
    | closing => rw [readFactor]; simp
    | word text => rw [readFactor]; simp

theorem outcome_readConjunction (tokens : List Token) :
    outcome (readConjunction inputs tokens) =
      outcome (readFactor inputs tokens) >>= fun p => outcome (readMoreFactors inputs p.1 p.2) := by
  rw [readConjunction]
  cases readFactor inputs tokens with
  | error problem => rfl
  | ok p =>
    obtain ⟨⟨c, rest⟩, h⟩ := p
    dsimp only
    show _ = outcome (readMoreFactors inputs c rest)
    cases readMoreFactors inputs c rest <;> rfl

theorem outcome_readMoreFactors_and (left : Condition) (rest : List Token) :
    outcome (readMoreFactors inputs left (.word "AND" :: rest)) =
      outcome (readFactor inputs rest) >>= fun p =>
        outcome (readMoreFactors inputs (.and left p.1) p.2) := by
  rw [readMoreFactors]
  cases readFactor inputs rest with
  | error problem => rfl
  | ok p =>
    obtain ⟨⟨c, tail⟩, h⟩ := p
    dsimp only
    show _ = outcome (readMoreFactors inputs (.and left c) tail)
    cases readMoreFactors inputs (.and left c) tail <;> rfl

theorem outcome_readMoreFactors_of_ne_and {tokens : List Token}
    (h : tokens.head? ≠ some (.word "AND")) (left : Condition) :
    outcome (readMoreFactors inputs left tokens) = .ok (left, tokens) := by
  rw [readMoreFactors]
  · rfl
  · rintro rest rfl
    exact h rfl

theorem outcome_readDisjunction (tokens : List Token) :
    outcome (readDisjunction inputs tokens) =
      outcome (readConjunction inputs tokens) >>= fun p =>
        outcome (readMoreConjunctions inputs p.1 p.2) := by
  rw [readDisjunction]
  cases readConjunction inputs tokens with
  | error problem => rfl
  | ok p =>
    obtain ⟨⟨c, rest⟩, h⟩ := p
    dsimp only
    show _ = outcome (readMoreConjunctions inputs c rest)
    cases readMoreConjunctions inputs c rest <;> rfl

theorem outcome_readMoreConjunctions_or (left : Condition) (rest : List Token) :
    outcome (readMoreConjunctions inputs left (.word "OR" :: rest)) =
      outcome (readConjunction inputs rest) >>= fun p =>
        outcome (readMoreConjunctions inputs (.or left p.1) p.2) := by
  rw [readMoreConjunctions]
  cases readConjunction inputs rest with
  | error problem => rfl
  | ok p =>
    obtain ⟨⟨c, tail⟩, h⟩ := p
    dsimp only
    show _ = outcome (readMoreConjunctions inputs (.or left c) tail)
    cases readMoreConjunctions inputs (.or left c) tail <;> rfl

theorem outcome_readMoreConjunctions_of_ne_or {tokens : List Token}
    (h : tokens.head? ≠ some (.word "OR")) (left : Condition) :
    outcome (readMoreConjunctions inputs left tokens) = .ok (left, tokens) := by
  rw [readMoreConjunctions]
  · rfl
  · rintro rest rfl
    exact h rfl

theorem readCondition_eq_ok_iff {tokens : List Token} {c : Condition} :
    readCondition inputs tokens = .ok c ↔
      outcome (readDisjunction inputs tokens) = .ok (c, []) := by
  unfold readCondition
  -- no tokens are a fault either way, if not the same one
  cases tokens with
  | nil =>
    have : outcome (readDisjunction inputs []) = .error .conditionShape := by
      rw [outcome_readDisjunction, outcome_readConjunction, readFactor_of_ne_opening (by simp)]
      rfl
    rw [this]
    simp
  | cons t ts =>
    rw [List.isEmpty_cons, if_neg Bool.false_ne_true]
    cases readDisjunction inputs (t :: ts) with
    | error problem => simp [outcome, Except.map]
    | ok p =>
      obtain ⟨⟨d, rest⟩, h⟩ := p
      cases rest <;> simp [outcome, Except.map]

/-! ## Words of names -/

theorem variableWords_split (tokens : List Token) :
    tokens = (variableWords tokens).1.map .word ++ (variableWords tokens).2 ∧
      ∀ w ∈ (variableWords tokens).1, w ≠ "AND" ∧ w ≠ "OR" ∧ w ≠ "IS" := by
  fun_induction variableWords tokens with
  | case1 => simp
  | case2 text rest h found ih =>
    simp only [isJoint, Bool.or_eq_true, beq_iff_eq, not_or] at h
    refine ⟨congrArg _ ih.1, ?_⟩
    intro w hw
    rcases List.mem_cons.mp hw with rfl | hw
    · exact ⟨h.1.1, h.1.2, h.2⟩
    · exact ih.2 w hw
  | case3 => simp

theorem termWords_split (tokens : List Token) :
    tokens = (termWords tokens).1.map .word ++ (termWords tokens).2 ∧
      ∀ w ∈ (termWords tokens).1, w ≠ "AND" ∧ w ≠ "OR" := by
  fun_induction termWords tokens with
  | case1 => simp
  | case2 text rest h found ih =>
    simp only [isJoint, Bool.or_eq_true, beq_iff_eq, not_or] at h
    refine ⟨congrArg _ ih.1, ?_⟩
    intro w hw
    rcases List.mem_cons.mp hw with rfl | hw
    · exact h
    · exact ih.2 w hw
  | case3 => simp

theorem variableWords_append_is {words : List String}
    (h : ∀ w ∈ words, w ≠ "AND" ∧ w ≠ "OR" ∧ w ≠ "IS") (rest : List Token) :
    variableWords (words.map .word ++ .word "IS" :: rest) = (words, .word "IS" :: rest) := by
  induction words with
  | nil => simp [variableWords]
  | cons w words ih =>
    have hw := h w (by simp)
    have hrest := ih fun v hv => h v (by simp [hv])
    simp [variableWords, isJoint, hw.1, hw.2.1, hw.2.2, hrest]

/-- The tokens go on with nothing that could belong to a name. -/
def EndsName (rest : List Token) : Prop := termWords rest = ([], rest)

theorem endsName_nil : EndsName [] := rfl

theorem endsName_closing (rest : List Token) : EndsName (.closing :: rest) := rfl

theorem endsName_and (rest : List Token) : EndsName (.word "AND" :: rest) := by
  simp [EndsName, termWords, isJoint]

theorem endsName_or (rest : List Token) : EndsName (.word "OR" :: rest) := by
  simp [EndsName, termWords, isJoint]

theorem termWords_append {words : List String} (h : ∀ w ∈ words, w ≠ "AND" ∧ w ≠ "OR")
    {rest : List Token} (hrest : EndsName rest) :
    termWords (words.map .word ++ rest) = (words, rest) := by
  induction words with
  | nil => exact hrest
  | cons w words ih =>
    have hw := h w (by simp)
    have htail := ih fun v hv => h v (by simp [hv])
    simp [termWords, isJoint, hw.1, hw.2, htail]

theorem negation_eq (tokens : List Token) :
    tokens = (if (negation tokens).1 then [.word "NOT"] else []) ++ (negation tokens).2 ∧
      ((negation tokens).1 = false → tokens.head? ≠ some (.word "NOT")) := by
  unfold negation
  split
  · simp
  · rename_i h
    refine ⟨rfl, fun _ hhead => ?_⟩
    obtain ⟨rest, rfl⟩ := List.head?_eq_some_iff.mp hhead
    exact h rest rfl

theorem negation_of_head_ne {tokens : List Token} (h : tokens.head? ≠ some (.word "NOT")) :
    negation tokens = (false, tokens) := by
  unfold negation
  split
  · simp at h
  · rfl

theorem negation_termTokens {negated : Bool} {term : List String}
    (hterm : CanNameTerm negated term) (rest : List Token) :
    negation ((if negated then [.word "NOT"] else []) ++ (term.map .word ++ rest)) =
      (negated, term.map .word ++ rest) := by
  obtain ⟨hne, -, hhead⟩ := hterm
  cases negated with
  | true => rfl
  | false =>
    apply negation_of_head_ne
    obtain ⟨w, words, rfl⟩ := List.exists_cons_of_ne_nil hne
    simpa using hhead rfl

theorem resolve_eq_ok {name term : String} {negated : Bool} {c : Comparison} :
    resolve inputs name term negated = .ok c ↔
      ∃ v i, inputs.find? (·.name == name) = some v ∧ v.termIndex? term = some i ∧
        c = ⟨name, i, negated⟩ := by
  unfold resolve
  cases inputs.find? (·.name == name) with
  | none => simp
  | some v =>
    cases hi : v.termIndex? term with
    | none => simp [hi]
    | some i => simp [hi, eq_comm]

/-! ## What is read derives what is answered -/

theorem readComparison_sound {tokens rest : List Token} {c : Condition}
    (h : outcome (readComparison inputs tokens) = .ok (c, rest)) :
    ∃ used, tokens = used ++ rest ∧ Derives inputs .factor used c := by
  unfold readComparison at h
  dsimp only at h
  split at h
  · rename_i tail hv
    split at h
    · cases h
    · rename_i hname
      split at h
      · cases h
      · rename_i hterm
        unfold outcome at h
        rw [map_eq_ok] at h
        obtain ⟨p, hp, hval⟩ := h
        rw [map_eq_ok] at hp
        obtain ⟨comparison, hresolve, rfl⟩ := hp
        obtain ⟨rfl, rfl⟩ := Prod.mk.inj hval
        obtain ⟨v, i, hfind, hindex, rfl⟩ := resolve_eq_ok.mp hresolve
        -- the three splits of the tokens put together again
        have hleft := variableWords_split tokens
        have hsign := negation_eq tail
        have hright := termWords_split (negation tail).2
        refine ⟨comparisonTokens (variableWords tokens).1 (negation tail).1
          (termWords (negation tail).2).1, ?_, ?_⟩
        · rw [comparisonTokens, List.append_assoc, List.append_assoc, ← hright.1,
            List.cons_append, ← hsign.1, ← hv]
          exact hleft.1
        · refine .comparison ⟨?_, hleft.2⟩ ⟨?_, hright.2, ?_⟩ hfind hindex
          · simpa using hname
          · simpa using hterm
          · -- an unnegated term cannot begin with the word of a negation
            intro hfalse hhead
            apply hsign.2 hfalse
            obtain ⟨words, hwords⟩ := List.head?_eq_some_iff.mp hhead
            rw [hsign.1, hfalse, hright.1, hwords]
            rfl
  · cases h

mutual

theorem readFactor_sound {tokens rest : List Token} {c : Condition}
    (h : outcome (readFactor inputs tokens) = .ok (c, rest)) :
    ∃ used, tokens = used ++ rest ∧ Derives inputs .factor used c := by
  match tokens with
  | .opening :: inner =>
    rw [outcome_readFactor_opening] at h
    split at h
    · cases h
    · rename_i d tail hd
      obtain ⟨rfl, rfl⟩ := Prod.mk.inj (Except.ok.inj h)
      obtain ⟨used, rfl, hused⟩ := readDisjunction_sound hd
      exact ⟨.opening :: used ++ [.closing], by simp, .brackets hused⟩
    · cases h
  | [] | .closing :: _ | .word _ :: _ =>
    rw [readFactor_of_ne_opening (by simp)] at h
    exact readComparison_sound h
termination_by (tokens.length, 0)

theorem readConjunction_sound {tokens rest : List Token} {c : Condition}
    (h : outcome (readConjunction inputs tokens) = .ok (c, rest)) :
    ∃ used, tokens = used ++ rest ∧ Derives inputs .conjunction used c := by
  rw [outcome_readConjunction, bind_eq_ok] at h
  obtain ⟨⟨d, tail⟩, hd, hmore⟩ := h
  have hlt := length_lt_of_outcome hd
  obtain ⟨first, rfl, hfirst⟩ := readFactor_sound hd
  obtain ⟨used, rfl, hused⟩ := readMoreFactors_sound hmore (.oneFactor hfirst)
  exact ⟨first ++ used, by simp, hused⟩
termination_by (tokens.length, 1)

theorem readMoreFactors_sound {tokens rest : List Token} {left c : Condition}
    (h : outcome (readMoreFactors inputs left tokens) = .ok (c, rest)) {before : List Token}
    (hleft : Derives inputs .conjunction before left) :
    ∃ used, tokens = used ++ rest ∧ Derives inputs .conjunction (before ++ used) c := by
  by_cases hand : tokens.head? = some (.word "AND")
  · obtain ⟨inner, rfl⟩ := List.head?_eq_some_iff.mp hand
    rw [outcome_readMoreFactors_and, bind_eq_ok] at h
    obtain ⟨⟨d, tail⟩, hd, hmore⟩ := h
    -- the rest is shorter, which the recursion rests on
    have hlt := length_lt_of_outcome hd
    obtain ⟨right, rfl, hright⟩ := readFactor_sound hd
    obtain ⟨used, rfl, hused⟩ := readMoreFactors_sound hmore (.and hleft hright)
    exact ⟨.word "AND" :: right ++ used, by simp, by simpa using hused⟩
  · rw [outcome_readMoreFactors_of_ne_and hand] at h
    obtain ⟨rfl, rfl⟩ := Prod.mk.inj (Except.ok.inj h)
    exact ⟨[], rfl, by simpa using hleft⟩
termination_by (tokens.length, 1)

theorem readDisjunction_sound {tokens rest : List Token} {c : Condition}
    (h : outcome (readDisjunction inputs tokens) = .ok (c, rest)) :
    ∃ used, tokens = used ++ rest ∧ Derives inputs .disjunction used c := by
  rw [outcome_readDisjunction, bind_eq_ok] at h
  obtain ⟨⟨d, tail⟩, hd, hmore⟩ := h
  have hlt := length_lt_of_outcome hd
  obtain ⟨first, rfl, hfirst⟩ := readConjunction_sound hd
  obtain ⟨used, rfl, hused⟩ := readMoreConjunctions_sound hmore (.oneConjunction hfirst)
  exact ⟨first ++ used, by simp, hused⟩
termination_by (tokens.length, 2)

theorem readMoreConjunctions_sound {tokens rest : List Token} {left c : Condition}
    (h : outcome (readMoreConjunctions inputs left tokens) = .ok (c, rest)) {before : List Token}
    (hleft : Derives inputs .disjunction before left) :
    ∃ used, tokens = used ++ rest ∧ Derives inputs .disjunction (before ++ used) c := by
  by_cases hor : tokens.head? = some (.word "OR")
  · obtain ⟨inner, rfl⟩ := List.head?_eq_some_iff.mp hor
    rw [outcome_readMoreConjunctions_or, bind_eq_ok] at h
    obtain ⟨⟨d, tail⟩, hd, hmore⟩ := h
    have hlt := length_lt_of_outcome hd
    obtain ⟨right, rfl, hright⟩ := readConjunction_sound hd
    obtain ⟨used, rfl, hused⟩ := readMoreConjunctions_sound hmore (.or hleft hright)
    exact ⟨.word "OR" :: right ++ used, by simp, by simpa using hused⟩
  · rw [outcome_readMoreConjunctions_of_ne_or hor] at h
    obtain ⟨rfl, rfl⟩ := Prod.mk.inj (Except.ok.inj h)
    exact ⟨[], rfl, by simpa using hleft⟩
termination_by (tokens.length, 2)

end

/-! ## What derives is read -/

theorem readComparison_complete {name term : List String} {negated : Bool} {v : Variable α}
    {i : Nat} (hname : CanNameVariable name) (hterm : CanNameTerm negated term)
    (hfind : inputs.find? (·.name == joined name) = some v)
    (hindex : v.termIndex? (joined term) = some i) {rest : List Token} (hrest : EndsName rest) :
    outcome (readComparison inputs (comparisonTokens name negated term ++ rest)) =
      .ok (.is ⟨joined name, i, negated⟩, rest) := by
  have htokens : comparisonTokens name negated term ++ rest = name.map .word ++ .word "IS" ::
      ((if negated then [.word "NOT"] else []) ++ (term.map .word ++ rest)) := by
    simp [comparisonTokens]
  have hleft : variableWords (comparisonTokens name negated term ++ rest) = (name, .word "IS" ::
      ((if negated then [.word "NOT"] else []) ++ (term.map .word ++ rest))) := by
    rw [htokens, variableWords_append_is hname.2]
  have hsign := negation_termTokens hterm rest
  have hright := termWords_append hterm.2.1 hrest
  have hresolve : resolve inputs (joined name) (joined term) negated =
      .ok ⟨joined name, i, negated⟩ := resolve_eq_ok.mpr ⟨v, i, hfind, hindex, rfl⟩
  unfold readComparison
  dsimp only
  split
  · rename_i tail hv
    rw [hleft] at hv
    obtain rfl : _ = tail := (List.cons.inj hv).2
    simp [outcome, Except.map, hleft, hsign, hright, hname.1, hterm.1, hresolve]
  · rename_i hv
    exact absurd (congrArg Prod.snd hleft) (hv _)

/-- What follows a phrase of a rank can belong neither to it nor to a further operand of it. -/
def Ends : Rank → List Token → Prop
  | .factor, rest => EndsName rest
  | .conjunction, rest => EndsName rest
  | .disjunction, rest => EndsName rest ∧ rest.head? ≠ some (.word "AND")

/-- The answer of a step that begins with the phrase of a rank and finds `rest` behind it. -/
def afterPhrase (inputs : List (Variable α)) :
    Rank → Condition → List Token → Except Problem (Condition × List Token)
  | .factor, c, rest => .ok (c, rest)
  | .conjunction, c, rest => outcome (readMoreFactors inputs c rest)
  | .disjunction, c, rest => outcome (readMoreConjunctions inputs c rest)

/-- The step that reads a phrase of a rank. -/
def readPhrase (inputs : List (Variable α)) (rank : Rank) (tokens : List Token) :
    Except Problem (Condition × List Token) :=
  match rank with
  | .factor => outcome (readFactor inputs tokens)
  | .conjunction => outcome (readConjunction inputs tokens)
  | .disjunction => outcome (readDisjunction inputs tokens)

theorem head?_comparisonTokens_ne_opening {name : List String} (hname : CanNameVariable name)
    (negated : Bool) (term : List String) (rest : List Token) :
    (comparisonTokens name negated term ++ rest).head? ≠ some .opening := by
  obtain ⟨w, words, rfl⟩ := List.exists_cons_of_ne_nil hname.1
  simp [comparisonTokens]

-- A joint groups to the left, so a phrase is followed through as the first operand of whatever
-- stands behind it.
theorem readPhrase_append {rank : Rank} {tokens : List Token} {c : Condition}
    (h : Derives inputs rank tokens c) {rest : List Token} (hrest : Ends rank rest) :
    readPhrase inputs rank (tokens ++ rest) = afterPhrase inputs rank c rest := by
  -- on the derivation; what follows a phrase decides where the reader stops
  induction h generalizing rest with
  | comparison hname hterm hfind hindex =>
    show outcome (readFactor inputs _) = _
    rw [readFactor_of_ne_opening (head?_comparisonTokens_ne_opening hname _ _ _)]
    exact readComparison_complete hname hterm hfind hindex hrest
  | @brackets tokens c _ ih =>
    -- the closing bracket ends the phrase inside
    have hinner : outcome (readDisjunction inputs (tokens ++ .closing :: rest)) =
        .ok (c, .closing :: rest) := by
      have := @ih (.closing :: rest) ⟨endsName_closing rest, by simp⟩
      rw [readPhrase, afterPhrase, outcome_readMoreConjunctions_of_ne_or (by simp)] at this
      exact this
    show outcome (readFactor inputs _) = _
    rw [List.cons_append, List.cons_append, outcome_readFactor_opening, List.append_assoc,
      List.singleton_append, hinner]
    rfl
  | oneFactor _ ih =>
    show outcome (readConjunction inputs _) = _
    rw [outcome_readConjunction]
    have := ih hrest
    rw [readPhrase] at this
    rw [this]
    rfl
  | @and left right c d _ _ ihl ihr =>
    have hl := @ihl (.word "AND" :: right ++ rest) (endsName_and _)
    have hr : outcome (readFactor inputs (right ++ rest)) = .ok (d, rest) := ihr hrest
    rw [List.append_assoc]
    rw [hl, List.cons_append, afterPhrase, outcome_readMoreFactors_and, hr]
    rfl
  | oneConjunction _ ih =>
    show outcome (readDisjunction inputs _) = _
    rw [outcome_readDisjunction]
    have := ih hrest.1
    rw [readPhrase, afterPhrase, outcome_readMoreFactors_of_ne_and hrest.2] at this
    rw [this]
    rfl
  | @or left right c d _ _ ihl ihr =>
    have hl := @ihl (.word "OR" :: right ++ rest) ⟨endsName_or _, by simp⟩
    have hr : outcome (readConjunction inputs (right ++ rest)) = .ok (d, rest) := by
      have := ihr hrest.1
      rw [readPhrase, afterPhrase, outcome_readMoreFactors_of_ne_and hrest.2] at this
      exact this
    rw [List.append_assoc]
    rw [hl, List.cons_append, afterPhrase, outcome_readMoreConjunctions_or, hr]
    rfl

/-- All tokens are read as a condition just when they derive it. -/
theorem readCondition_eq_ok_iff_derives {tokens : List Token} {c : Condition} :
    readCondition inputs tokens = .ok c ↔ Derives inputs .disjunction tokens c := by
  rw [readCondition_eq_ok_iff]
  constructor
  · intro h
    obtain ⟨used, rfl, hused⟩ := readDisjunction_sound h
    rwa [List.append_nil]
  · intro h
    have hnil : Ends .disjunction [] := ⟨endsName_nil, by simp⟩
    have := readPhrase_append h hnil
    rw [List.append_nil, readPhrase, afterPhrase,
      outcome_readMoreConjunctions_of_ne_or (by simp)] at this
    exact this

end FuzzyInference.Fcl
