import FuzzyInference.Fcl.Grammar
import FuzzyInference.Proofs.Names
import FuzzyInference.Proofs.WellFormed

/-!
# The text of a condition

The tokens of a written condition stand for the condition itself, but that every term is the first
one of its name.
-/

namespace FuzzyInference

variable {α : Type}

/-- The place of the first term that has the name of the term with an index. -/
def Variable.firstIndex (v : Variable α) (index : Int) : Int :=
  match v.term index with
  | .ok t => ((v.termIndex? t.name).getD 0 : Nat)
  | .error _ => index

/-- The comparison with the first term of the same name. -/
def Comparison.reread (inputs : List (Variable α)) (leaf : Comparison) : Comparison :=
  match inputs.find? (·.name == leaf.name) with
  | some v => { leaf with term := v.firstIndex leaf.term }
  | none => leaf

/-- The condition with the first term of the same name in every comparison. -/
def Condition.reread (inputs : List (Variable α)) : Condition → Condition
  | .is leaf => .is (leaf.reread inputs)
  | .and l r => .and (l.reread inputs) (r.reread inputs)
  | .or l r => .or (l.reread inputs) (r.reread inputs)

theorem Variable.exists_termIndex? {v : Variable α} {t : Term α} (ht : t ∈ v.terms) :
    ∃ i, v.termIndex? t.name = some i := by
  unfold Variable.termIndex?
  rw [← Option.isSome_iff_exists, List.findIdx?_isSome, List.any_eq_true]
  exact ⟨t, ht, beq_self_eq_true t.name⟩

theorem Variable.firstIndex_eq {v : Variable α} {index : Int} {t : Term α} {i : Nat}
    (ht : v.term index = .ok t) (hi : v.termIndex? t.name = some i) :
    v.firstIndex index = i := by
  unfold Variable.firstIndex
  rw [ht]
  dsimp only
  rw [hi]
  rfl

/-- The names behind a comparison read back as themselves. -/
def Comparison.Named (inputs : List (Variable α)) (leaf : Comparison) : Prop :=
  ∀ v ∈ inputs.find? (·.name == leaf.name), ∀ t, v.term leaf.term = .ok t →
    Fcl.Admitted (Fcl.spacedWords v.name.toList) ∧ Fcl.Admitted (Fcl.spacedWords t.name.toList)

theorem Comparison.named {inputs : List (Variable α)} (h : ∀ v ∈ inputs, v.Named)
    (leaf : Comparison) : leaf.Named inputs := by
  intro v hfind t ht
  obtain ⟨hname, hterms⟩ := h v (List.mem_of_find?_eq_some hfind)
  exact ⟨hname, hterms t (List.mem_of_getElem? (Variable.term_eq_ok.mp ht).2)⟩

namespace Fcl

open Text

/-! ## Names as tokens -/

/-- The words of a name as strings. -/
def nameWords (name : String) : List String := (spacedWords name.toList).map String.ofList

theorem joined_nameWords (name : String) : joined (nameWords name) = name := by
  have hback : (String.toList ∘ String.ofList) = id := by
    ext1 cs
    exact String.toList_ofList
  rw [← String.toList_inj]
  unfold joined nameWords
  rw [String.toList_intercalate, List.map_map, hback, List.map_id]
  exact spaced_spacedWords name.toList

theorem Admitted.tokens {words : List (List Char)} (h : Admitted words) :
    words.flatMap Token.ofText = (words.map String.ofList).map .word := by
  have hone : ∀ w ∈ words, Token.ofText w = [.word (String.ofList w)] := fun w hw =>
    ofText_word (h.pieces w hw).1 (h.wordChars w hw)
  rw [List.flatMap_congr hone, ← List.map_eq_flatMap, List.map_map]
  rfl

theorem Admitted.ne_of_reserved {words : List (List Char)} (h : Admitted words) (word : String)
    (hword : word.toList ∈ reservedWords) : ∀ w ∈ words.map String.ofList, w ≠ word := by
  intro w hw heq
  obtain ⟨cs, hcs, rfl⟩ := List.mem_map.mp hw
  refine h.unreserved cs hcs ?_
  rwa [← heq, String.toList_ofList] at hword

theorem Admitted.noThen {words : List (List Char)} (h : Admitted words) :
    .word "THEN" ∉ words.flatMap Token.ofText := by
  rw [h.tokens]
  intro hmem
  obtain ⟨w, hw, hthen⟩ := List.mem_map.mp hmem
  exact h.ne_of_reserved "THEN" (by decide) w hw (Token.word.inj hthen)

theorem Admitted.canNameVariable {name : String} (h : Admitted (spacedWords name.toList)) :
    CanNameVariable (nameWords name) := by
  refine ⟨by simpa [nameWords] using h.nonempty, fun w hw => ⟨?_, ?_, ?_⟩⟩
  · exact h.ne_of_reserved _ (by decide) w hw
  · exact h.ne_of_reserved _ (by decide) w hw
  · exact h.ne_of_reserved _ (by decide) w hw

theorem Admitted.canNameTerm {name : String} (h : Admitted (spacedWords name.toList))
    (negated : Bool) : CanNameTerm negated (nameWords name) := by
  refine ⟨by simpa [nameWords] using h.nonempty, fun w hw => ⟨?_, ?_⟩, fun _ hnot => ?_⟩
  · exact h.ne_of_reserved _ (by decide) w hw
  · exact h.ne_of_reserved _ (by decide) w hw
  · exact h.ne_of_reserved "NOT" (by decide) _ (List.mem_of_mem_head? hnot) rfl

/-! ## Pieces of a condition -/

/-- Pieces that can stand in front of `THEN`. -/
structure Writable (ps : List (List Char)) : Prop where
  nonempty : ps ≠ []
  pieces : ∀ p ∈ ps, IsPiece p
  unslashed : ∀ p ∈ ps, Unslashed p
  noThen : .word "THEN" ∉ ps.flatMap Token.ofText

theorem Writable.not_mem {ps : List (List Char)} (hp : Writable ps) : "THEN".toList ∉ ps :=
  fun hmem => hp.noThen (List.mem_flatMap.mpr ⟨_, hmem, by decide⟩)

theorem Writable.append {ps qs : List (List Char)} (hp : Writable ps)
    (hpieces : ∀ q ∈ qs, IsPiece q) (hunslashed : ∀ q ∈ qs, Unslashed q)
    (hthen : .word "THEN" ∉ qs.flatMap Token.ofText) : Writable (ps ++ qs) := by
  refine ⟨by simp [hp.nonempty], ?_, ?_, ?_⟩
  · exact fun p hmem => (List.mem_append.mp hmem).elim (hp.pieces p) (hpieces p)
  · exact fun p hmem => (List.mem_append.mp hmem).elim (hp.unslashed p) (hunslashed p)
  · rw [List.flatMap_append]
    exact fun hmem => (List.mem_append.mp hmem).elim hp.noThen hthen

theorem isPiece_append {p q : List Char} (hp : ∀ c ∈ p, isBlank c = false) (hq : IsPiece q) :
    IsPiece (p ++ q) ∧ IsPiece (q ++ p) := by
  have hboth : ∀ c, c ∈ p ∨ c ∈ q → isBlank c = false := fun c hc => hc.elim (hp c) (hq.2 c)
  constructor
  · exact ⟨by simp [hq.1], fun c hc => hboth c (List.mem_append.mp hc)⟩
  · exact ⟨by simp [hq.1], fun c hc => hboth c (List.mem_append.mp hc).symm⟩

-- An opening bracket joins the first piece.
theorem Writable.opened {ps : List (List Char)} (h : Writable ps) :
    ∃ qs, spaced qs = '(' :: spaced ps ∧ Writable qs ∧
      qs.flatMap Token.ofText = .opening :: ps.flatMap Token.ofText := by
  obtain ⟨p, rest, rfl⟩ := List.exists_cons_of_ne_nil h.nonempty
  obtain ⟨hp, hrest⟩ := List.forall_mem_cons.mp h.pieces
  obtain ⟨hunslashed, hothers⟩ := List.forall_mem_cons.mp h.unslashed
  have htokens : (('(' :: p) :: rest).flatMap Token.ofText =
      .opening :: (p :: rest).flatMap Token.ofText := by
    rw [List.flatMap_cons, List.flatMap_cons, ofText_opening, List.cons_append]
  refine ⟨('(' :: p) :: rest, List.intercalate_cons_cons_left, ⟨by simp, ?_, ?_, ?_⟩, htokens⟩
  · exact List.forall_mem_cons.mpr ⟨(isPiece_append (p := ['(']) (by decide) hp).1, hrest⟩
  · exact List.forall_mem_cons.mpr
      ⟨hunslashed.cons fun c _ hslashes => absurd hslashes.1 (by decide), hothers⟩
  · rw [htokens]
    simpa using h.noThen

theorem spaced_concat (init : List (List Char)) (p tail : List Char) :
    spaced (init ++ [p ++ tail]) = spaced (init ++ [p]) ++ tail := by
  by_cases h : init = []
  · subst h
    simp
  · rw [spaced_append h (by simp), spaced_append h (by simp)]
    simp

-- A closing bracket joins the last piece.
theorem Writable.closed {ps : List (List Char)} (h : Writable ps) :
    ∃ qs, spaced qs = spaced ps ++ [')'] ∧ Writable qs ∧
      qs.flatMap Token.ofText = ps.flatMap Token.ofText ++ [.closing] := by
  obtain ⟨init, p, rfl⟩ : ∃ init p, ps = init ++ [p] :=
    ⟨_, _, (List.dropLast_concat_getLast h.nonempty).symm⟩
  obtain ⟨hinit, hp⟩ := List.forall_mem_append.mp h.pieces
  obtain ⟨hothers, hunslashed⟩ := List.forall_mem_append.mp h.unslashed
  rw [List.forall_mem_singleton] at hp hunslashed
  have htokens : (init ++ [p ++ [')']]).flatMap Token.ofText =
      (init ++ [p]).flatMap Token.ofText ++ [.closing] := by
    rw [List.flatMap_append, List.flatMap_append, List.flatMap_singleton, List.flatMap_singleton,
      ofText_closing, List.append_assoc]
  refine ⟨init ++ [p ++ [')']], spaced_concat init p [')'], ⟨by simp, ?_, ?_, ?_⟩, htokens⟩
  · refine List.forall_mem_append.mpr ⟨hinit, List.forall_mem_singleton.mpr ?_⟩
    exact (isPiece_append (p := [')']) (by decide) hp).2
  · refine List.forall_mem_append.mpr ⟨hothers, List.forall_mem_singleton.mpr ?_⟩
    refine hunslashed.append (.singleton _) fun c _ d hd hslashes => ?_
    obtain rfl : ')' = d := by simpa using hd
    exact absurd hslashes.2 (by decide)
  · rw [htokens]
    simpa using h.noThen

/-- The text consists of pieces, and the tokens are those of the pieces. -/
def Spells (text : List Char) (tokens : List Token) : Prop :=
  ∃ ps, text = spaced ps ∧ Writable ps ∧ ps.flatMap Token.ofText = tokens

theorem Spells.bracketed {text : List Char} {tokens : List Token} (h : Spells text tokens) :
    Spells ('(' :: text ++ [')']) (.opening :: tokens ++ [.closing]) := by
  obtain ⟨ps, rfl, hps, rfl⟩ := h
  obtain ⟨qs, hqs, hwritable, htokens⟩ := hps.opened
  obtain ⟨rs, hrs, hwritable', htokens'⟩ := hwritable.closed
  exact ⟨rs, by rw [hrs, hqs], hwritable', by rw [htokens', htokens]⟩

/-- A word of letters, other than `THEN`. -/
structure Connects (word : String) : Prop where
  piece : IsPiece word.toList
  wordChars : ∀ c ∈ word.toList, Token.isWordChar c = true
  quiet : Quiet word.toList
  notThen : "THEN" ≠ word

theorem Connects.ofText {word : String} (h : Connects word) :
    Token.ofText word.toList = [.word word] := by
  rw [ofText_word h.piece.1 h.wordChars, String.ofList_toList]

theorem connects_of_mem {word : String} (h : word ∈ ["AND", "OR", "IS", "NOT"]) :
    Connects word := by
  have hquiet : ∀ w ∈ ["AND", "OR", "IS", "NOT"], '(' ∉ w.toList ∧ '/' ∉ w.toList := by decide
  have hpiece : ∀ w ∈ ["AND", "OR", "IS", "NOT"], IsPiece w.toList := by decide
  refine ⟨hpiece word h, ?_, quiet_of_not_mem (hquiet word h).1 (hquiet word h).2, ?_⟩
  · revert word
    decide
  · revert word
    decide

-- Two texts with a word between them.
theorem Spells.joined {left right : List Char} {leftTokens rightTokens : List Token} {word : String}
    (hleft : Spells left leftTokens) (hright : Spells right rightTokens) (hword : Connects word) :
    Spells (left ++ ' ' :: word.toList ++ ' ' :: right)
      (leftTokens ++ .word word :: rightTokens) := by
  obtain ⟨ps, rfl, hps, rfl⟩ := hleft
  obtain ⟨qs, rfl, hqs, rfl⟩ := hright
  refine ⟨ps ++ word.toList :: qs, ?_, ?_, ?_⟩
  · rw [spaced_append hps.nonempty (by simp), spaced_cons _ hqs.nonempty]
    simp
  · refine hps.append ?_ ?_ ?_
    · exact List.forall_mem_cons.mpr ⟨hword.piece, hqs.pieces⟩
    · exact List.forall_mem_cons.mpr ⟨hword.quiet.unslashed, hqs.unslashed⟩
    · rw [List.flatMap_cons, hword.ofText]
      exact fun h =>
        (List.mem_cons.mp h).elim (fun h => hword.notThen (Token.word.inj h)) hqs.noThen
  · rw [List.flatMap_append, List.flatMap_cons, hword.ofText, List.singleton_append]

/-! ## Comparisons -/

theorem Admitted.writable {words : List (List Char)} (h : Admitted words) : Writable words :=
  ⟨h.nonempty, h.pieces, unslashed_spaced.mp h.quiet.unslashed, h.noThen⟩

/-- The words of a comparison. -/
def comparisonPieces (name : String) (negated : Bool) (term : String) : List (List Char) :=
  spacedWords name.toList ++
    ("IS".toList :: (if negated then ["NOT".toList] else []) ++ spacedWords term.toList)

theorem spaced_comparisonPieces {name term : String} (negated : Bool)
    (hname : Admitted (spacedWords name.toList)) (hterm : Admitted (spacedWords term.toList)) :
    spaced (comparisonPieces name negated term) =
      (name ++ (if negated then " IS NOT " else " IS ") ++ term).toList := by
  unfold comparisonPieces
  rw [spaced_append hname.nonempty (by simp), spaced_spacedWords, String.toList_append,
    String.toList_append]
  cases negated with
  | false =>
    rw [if_neg (by simp), if_neg (by simp), List.singleton_append,
      spaced_cons _ hterm.nonempty, spaced_spacedWords, List.append_assoc]
    rfl
  | true =>
    rw [if_pos rfl, if_pos rfl, List.cons_append, List.singleton_append, spaced_cons _ (by simp),
      spaced_cons _ hterm.nonempty, spaced_spacedWords, List.append_assoc]
    rfl

theorem spells_comparison {name term : String} (negated : Bool)
    (hname : Admitted (spacedWords name.toList)) (hterm : Admitted (spacedWords term.toList)) :
    Spells (name ++ (if negated then " IS NOT " else " IS ") ++ term).toList
      (comparisonTokens (nameWords name) negated (nameWords term)) := by
  have his : Connects "IS" := connects_of_mem (by decide)
  have hnot : Connects "NOT" := connects_of_mem (by decide)
  have hthen := hterm.writable.noThen
  refine ⟨comparisonPieces name negated term, (spaced_comparisonPieces negated hname hterm).symm,
    hname.writable.append ?_ ?_ ?_, ?_⟩
  · cases negated with
    | false => exact List.forall_mem_cons.mpr ⟨his.piece, hterm.pieces⟩
    | true =>
      exact List.forall_mem_cons.mpr
        ⟨his.piece, List.forall_mem_cons.mpr ⟨hnot.piece, hterm.pieces⟩⟩
  · have hunslashed := hterm.writable.unslashed
    cases negated with
    | false => exact List.forall_mem_cons.mpr ⟨his.quiet.unslashed, hunslashed⟩
    | true =>
      exact List.forall_mem_cons.mpr
        ⟨his.quiet.unslashed, List.forall_mem_cons.mpr ⟨hnot.quiet.unslashed, hunslashed⟩⟩
  · cases negated with
    | false =>
      show _ ∉ ("IS".toList :: spacedWords term.toList).flatMap Token.ofText
      rw [List.flatMap_cons, his.ofText]
      simpa using hthen
    | true =>
      show _ ∉ ("IS".toList :: "NOT".toList :: spacedWords term.toList).flatMap Token.ofText
      rw [List.flatMap_cons, List.flatMap_cons, his.ofText, hnot.ofText]
      simpa using hthen
  · unfold comparisonPieces comparisonTokens nameWords
    rw [List.flatMap_append, hname.tokens, List.cons_append, List.flatMap_cons, his.ofText]
    cases negated with
    | false => simp [hterm.tokens]
    | true =>
      rw [if_pos rfl, if_pos rfl, List.singleton_append, List.singleton_append, List.flatMap_cons,
        hnot.ofText, hterm.tokens]
      simp

/-! ## Conditions -/

/-- The rank of the text of a condition. -/
def textRank : Condition → Rank
  | .is _ => .factor
  | .and _ _ => .conjunction
  | .or _ _ => .disjunction

section Ranks

variable {inputs : List (Variable α)} {tokens : List Token} {c : Condition}

theorem Derives.disjunction {rank : Rank} (h : Derives inputs rank tokens c) :
    Derives inputs .disjunction tokens c := by
  cases rank with
  | factor => exact .oneConjunction (.oneFactor h)
  | conjunction => exact .oneConjunction h
  | disjunction => exact h

theorem Derives.ofFactor (h : Derives inputs .factor tokens c) (rank : Rank) :
    Derives inputs rank tokens c := by
  cases rank with
  | factor => exact h
  | conjunction => exact .oneFactor h
  | disjunction => exact .oneConjunction (.oneFactor h)

theorem Spells.joinedText {left right joint word : String} {leftTokens rightTokens : List Token}
    (hleft : Spells left.toList leftTokens) (hright : Spells right.toList rightTokens)
    (hword : Connects word) (hjoint : joint.toList = ' ' :: word.toList ++ [' ']) :
    Spells (left ++ joint ++ right).toList (leftTokens ++ .word word :: rightTokens) := by
  have h := hleft.joined hright hword
  rw [String.toList_append, String.toList_append, hjoint, List.append_assoc, List.append_assoc,
    List.singleton_append]
  rwa [List.append_assoc] at h

/-- The text spells tokens that stand for the condition at a rank. -/
def Writes (inputs : List (Variable α)) (rank : Rank) (text : String) (c : Condition) : Prop :=
  ∃ tokens, Spells text.toList tokens ∧ Derives inputs rank tokens c

theorem Writes.bracketedIf {text : String} {rank wanted : Rank} {needed : Bool}
    (h : Writes inputs rank text c) (hwanted : needed = false → rank = wanted ∨
      rank = .factor ∨ wanted = .disjunction) :
    Writes inputs wanted (bracketedIf needed text) c := by
  obtain ⟨tokens, hspells, hderives⟩ := h
  cases needed with
  | false =>
    refine ⟨tokens, hspells, ?_⟩
    rcases hwanted rfl with rfl | rfl | rfl
    · exact hderives
    · exact hderives.ofFactor wanted
    · exact hderives.disjunction
  | true =>
    refine ⟨_, ?_, Derives.ofFactor (.brackets hderives.disjunction) wanted⟩
    have hbracketed := hspells.bracketed
    unfold Fcl.bracketedIf
    rw [if_pos rfl, String.toList_append, String.toList_append]
    exact hbracketed

theorem Writes.and {left right : String} {c d : Condition}
    (hleft : Writes inputs .conjunction left c) (hright : Writes inputs .factor right d) :
    Writes inputs .conjunction (left ++ " AND " ++ right) (.and c d) := by
  obtain ⟨lefts, hlefts, hc⟩ := hleft
  obtain ⟨rights, hrights, hd⟩ := hright
  exact ⟨_, hlefts.joinedText hrights (connects_of_mem (by decide)) rfl, .and hc hd⟩

theorem Writes.or {left right : String} {c d : Condition}
    (hleft : Writes inputs .disjunction left c) (hright : Writes inputs .conjunction right d) :
    Writes inputs .disjunction (left ++ " OR " ++ right) (.or c d) := by
  obtain ⟨lefts, hlefts, hc⟩ := hleft
  obtain ⟨rights, hrights, hd⟩ := hright
  exact ⟨_, hlefts.joinedText hrights (connects_of_mem (by decide)) rfl, .or hc hd⟩

end Ranks

-- The text of a comparison names an input and one of its terms.
theorem exists_of_comparisonText {c : Controller α} {leaf : Comparison} {text : String}
    (htext : conditionText c (.is leaf) = .ok text) (hnamed : leaf.Named c.inputs) : ∃ v t,
      c.inputs.find? (·.name == leaf.name) = some v ∧ v.term leaf.term = .ok t ∧ t ∈ v.terms ∧
        Admitted (spacedWords leaf.name.toList) ∧ Admitted (spacedWords t.name.toList) ∧
        text = leaf.name ++ (if leaf.negated then " IS NOT " else " IS ") ++ t.name := by
  obtain ⟨v, hv, h⟩ := bind_eq_ok.mp htext
  obtain ⟨t, ht, h⟩ := bind_eq_ok.mp h
  have hfind : c.inputs.find? (·.name == leaf.name) = some v := Controller.input_eq_ok.mp hv
  have hname : v.name = leaf.name := by simpa using List.find?_some hfind
  have hterm : t ∈ v.terms := List.mem_of_getElem? (Variable.term_eq_ok.mp ht).2
  obtain ⟨hadmitted, hadmittedTerm⟩ := hnamed v hfind t ht
  rw [hname] at hadmitted
  exact ⟨v, t, hfind, ht, hterm, hadmitted, hadmittedTerm, (Except.ok.inj h).symm⟩

-- A written condition reads as the condition, but that every term is the first of its name.
theorem writes_of_conditionText {c : Controller α} {condition : Condition} {text : String}
    (htext : conditionText c condition = .ok text)
    (hnamed : ∀ leaf ∈ condition.leaves, leaf.Named c.inputs) :
    Writes c.inputs (textRank condition) text (condition.reread c.inputs) := by
  induction condition generalizing text with
  | is leaf =>
    obtain ⟨v, t, hfind, ht, hterm, hadmitted, hadmittedTerm, rfl⟩ :=
      exists_of_comparisonText htext (hnamed leaf (List.mem_singleton_self leaf))
    -- another term of the name may come first; that one is read
    obtain ⟨i, hi⟩ := Variable.exists_termIndex? hterm
    refine ⟨_, spells_comparison leaf.negated hadmitted hadmittedTerm, ?_⟩
    have hderives := @Derives.comparison α c.inputs _ _ _ v i hadmitted.canNameVariable
      (hadmittedTerm.canNameTerm leaf.negated)
      (by rw [joined_nameWords, hfind]) (by rw [joined_nameWords, hi])
    rw [joined_nameWords] at hderives
    unfold Condition.reread Comparison.reread
    rw [hfind]
    dsimp only
    rw [Variable.firstIndex_eq ht hi]
    exact hderives
  | and l r ihl ihr =>
    obtain ⟨left, hleft, h⟩ := bind_eq_ok.mp htext
    obtain ⟨right, hright, h⟩ := bind_eq_ok.mp h
    obtain rfl := Except.ok.inj h
    obtain ⟨hl, hr⟩ := List.forall_mem_append.mp hnamed
    -- brackets stand around every operand but a comparison, or a conjunction on the left
    refine Writes.and ((ihl hleft hl).bracketedIf fun hneeded => ?_)
      ((ihr hright hr).bracketedIf fun hneeded => ?_)
    · cases l with
      | is leaf => exact .inr (.inl rfl)
      | and l₁ l₂ => exact .inl rfl
      | or l₁ l₂ => cases hneeded
    · cases r with
      | is leaf => exact .inl rfl
      | and r₁ r₂ => cases hneeded
      | or r₁ r₂ => cases hneeded
  | or l r ihl ihr =>
    obtain ⟨left, hleft, h⟩ := bind_eq_ok.mp htext
    obtain ⟨right, hright, h⟩ := bind_eq_ok.mp h
    obtain rfl := Except.ok.inj h
    obtain ⟨hl, hr⟩ := List.forall_mem_append.mp hnamed
    refine Writes.or ?_ ((ihr hright hr).bracketedIf fun hneeded => ?_)
    · obtain ⟨tokens, hspells, hderives⟩ := ihl hleft hl
      exact ⟨tokens, hspells, hderives.disjunction⟩
    · cases r with
      | is leaf => exact .inr (.inl rfl)
      | and r₁ r₂ => exact .inl rfl
      | or r₁ r₂ => cases hneeded

end Fcl

end FuzzyInference
