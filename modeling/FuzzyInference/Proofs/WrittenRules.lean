import FuzzyInference.Fcl.Reader
import FuzzyInference.Proofs.ConditionGrammar
import FuzzyInference.Proofs.ConditionText
import FuzzyInference.Proofs.Numbers

/-!
# Settings and rules that are written

The statements inside the block of an output and inside the block of the rules read as what has been
written, but that terms are the first of their names and numbers are read again from their texts.
-/

namespace FuzzyInference

open List (Forall₂)

variable {α : Type}

/-- The variables and their terms have the same names. -/
def Variable.SameTerms (v v' : Variable α) : Prop :=
  v'.name = v.name ∧ v'.terms.map Term.name = v.terms.map Term.name

theorem Variable.termIndex?_of_sameTerms {v v' : Variable α} (h : v.SameTerms v') (name : String) :
    v'.termIndex? name = v.termIndex? name := by
  have hmap (w : Variable α) :
      w.termIndex? name = (w.terms.map Term.name).findIdx? (· == name) := by
    unfold Variable.termIndex?
    rw [List.findIdx?_map]
    rfl
  rw [hmap, hmap, h.2]

/-- The conclusion with the first term of the same name and the weight that is read. -/
def Conclusion.reread [Scalar α] (outputs : List (OutputVariable α)) (conclusion : Conclusion α) :
    Conclusion α :=
  let weight := if conclusion.weight == 1 then 1 else Scalar.reread conclusion.weight
  match outputs.find? (·.name == conclusion.name) with
  | some o => ⟨conclusion.name, o.toVariable.firstIndex conclusion.term, weight⟩
  | none => { conclusion with weight }

/-- The rule that is read where a rule of the controller has been written. -/
def Rule.reread [Scalar α] (c : Controller α) (r : Rule α) : Rule α :=
  ⟨r.condition.reread c.inputs, r.conclusion.reread c.outputs, 0⟩

namespace Fcl

open Text

theorem Derives.of_sameTerms {inputs inputs' : List (Variable α)}
    (h : Forall₂ Variable.SameTerms inputs inputs') {rank : Rank} {tokens : List Token}
    {c : Condition} (hderives : Derives inputs rank tokens c) : Derives inputs' rank tokens c := by
  induction hderives with
  | comparison hname hterm hv hi =>
    obtain ⟨v', hv', hsame⟩ := Action.find?_of_forall₂ (fun _ _ hxy => by rw [hxy.1]) h hv
    exact .comparison hname hterm hv' (by rw [Variable.termIndex?_of_sameTerms hsame, hi])
  | brackets _ ih => exact .brackets ih
  | oneFactor _ ih => exact .oneFactor ih
  | and _ _ ihc ihd => exact .and ihc ihd
  | oneConjunction _ ih => exact .oneConjunction ih
  | or _ _ ihc ihd => exact .or ihc ihd

theorem Derives.leaves_valid {inputs : List (Variable α)} {rank : Rank} {tokens : List Token}
    {condition : Condition} (h : Derives inputs rank tokens condition) :
    ∀ leaf ∈ condition.leaves, ∃ v, inputs.find? (·.name == leaf.name) = some v ∧
      0 ≤ leaf.term ∧ leaf.term < v.terms.length := by
  induction h with
  | @comparison name term negated v i _ _ hv hi =>
    refine List.forall_mem_singleton.mpr ⟨v, hv, by simp, ?_⟩
    have hlt := (List.findIdx?_eq_some_iff_getElem.mp hi).1
    show (i : Int) < _
    omega
  | brackets _ ih => exact ih
  | oneFactor _ ih => exact ih
  | and _ _ ihc ihd => exact List.forall_mem_append.mpr ⟨ihc, ihd⟩
  | oneConjunction _ ih => exact ih
  | or _ _ ihc ihd => exact List.forall_mem_append.mpr ⟨ihc, ihd⟩

variable [Scalar α]

/-! ## Settings and default values -/

theorem readDefault_pieces [Scalar.PlainText α] {x : α} (h : Scalar.Legible x) :
    readDefault (spaced ["DEFAULT".toList, [':', '='], (Scalar.text x).toList]) =
      .ok (Scalar.reread x) := by
  have hpiece := h.isPiece
  rw [spaced_cons _ (by simp), spaced_cons _ (by simp), spaced_singleton]
  unfold readDefault
  have hassign : IsPiece [':', '='] := by decide
  rw [after?_append, Option.bind_some, trimLeft_cons_of_blank (by decide),
    trimLeft_append_of_piece hassign, after?_append]
  dsimp only
  rw [trim_cons_space_piece hpiece, if_neg hpiece.1, Scalar.readNumber_text h]

theorem readSetting_method (method : Defuzzification) :
    readSetting "METHOD" .defuzzification
      (spaced ["METHOD".toList, [':'], method.label.toList]) = .ok method := by
  cases method <;> rfl

theorem readSetting_and (norm : NormPair) :
    readSetting "AND" .andOperator (spaced ["AND".toList, [':'], norm.andLabel.toList]) =
      .ok norm := by
  cases norm <;> rfl

theorem readSetting_act (activation : Activation) :
    readSetting "ACT" .activation (spaced ["ACT".toList, [':'], activation.label.toList]) =
      .ok activation := by
  cases activation <;> rfl

theorem readSetting_accu (accumulation : Accumulation) :
    readSetting "ACCU" .accumulation (spaced ["ACCU".toList, [':'], accumulation.label.toList]) =
      .ok accumulation := by
  cases accumulation <;> rfl

/-! ## Conclusions -/

/-- The pieces of a written weight. -/
def weightPieces (weight : α) : List (List Char) :=
  if weight == 1 then [] else ["WITH".toList, (Scalar.text weight).toList]

/-- The pieces of a written conclusion. -/
def conclusionPieces (name term : String) (weight : α) : List (List Char) :=
  spacedWords name.toList ++ "IS".toList :: (spacedWords term.toList ++ weightPieces weight)

theorem pieces_weightPieces [Scalar.PlainText α] {weight : α} (h : Scalar.Legible weight) :
    ∀ p ∈ weightPieces weight, IsPiece p ∧ Quiet p := by
  unfold weightPieces
  split
  · simp
  · refine List.forall_mem_cons.mpr ⟨⟨by decide, ?_⟩,
      List.forall_mem_singleton.mpr ⟨h.isPiece, ?_⟩⟩
    · exact quiet_of_not_mem (by decide) (by decide)
    · exact quiet_of_not_mem (h.not_mem (by decide)) (h.not_mem (by decide))

theorem pieces_conclusionPieces [Scalar.PlainText α] {name term : String} {weight : α}
    (hname : Admitted (spacedWords name.toList)) (hterm : Admitted (spacedWords term.toList))
    (hweight : Scalar.Legible weight) :
    ∀ p ∈ conclusionPieces name term weight, IsPiece p ∧ Quiet p := by
  have his : Connects "IS" := connects_of_mem (by decide)
  unfold conclusionPieces
  refine List.forall_mem_append.mpr ⟨hname.quietPieces, List.forall_mem_cons.mpr
    ⟨⟨his.piece, his.quiet⟩, List.forall_mem_append.mpr ⟨hterm.quietPieces, ?_⟩⟩⟩
  exact pieces_weightPieces hweight

theorem toList_conclusionText {name term : String} {weight : α}
    (hname : Admitted (spacedWords name.toList)) (hterm : Admitted (spacedWords term.toList)) :
    (name ++ " IS " ++ term ++
      (if weight == 1 then "" else " WITH " ++ Scalar.text weight)).toList =
      spaced (conclusionPieces name term weight) := by
  have hne : spacedWords term.toList ++ weightPieces weight ≠ [] := by simp [hterm.nonempty]
  unfold conclusionPieces
  rw [spaced_append hname.nonempty (by simp), spaced_cons _ hne, spaced_spacedWords]
  unfold weightPieces
  split
  · rw [List.append_nil, spaced_spacedWords]
    simp [String.toList_append]
  · rw [spaced_append hterm.nonempty (by simp), spaced_spacedWords, spaced_cons _ (by simp),
      spaced_singleton]
    simp [String.toList_append]

theorem conclusionParts?_pieces [Scalar.PlainText α] {name term : String} {weight : α}
    (hname : Admitted (spacedWords name.toList)) (hterm : Admitted (spacedWords term.toList))
    (hweight : Scalar.Legible weight) :
    conclusionParts? (spaced (conclusionPieces name term weight)) =
      some (name.toList, term.toList,
        if weight == 1 then none else some (Scalar.text weight).toList) := by
  have his : Connects "IS" := connects_of_mem (by decide)
  have hpieces : ∀ p ∈ spacedWords term.toList ++ weightPieces weight, IsPiece p :=
    List.forall_mem_append.mpr ⟨hterm.pieces, fun p hp => (pieces_weightPieces hweight p hp).1⟩
  have hsplit := splitAtWord?_spaced his.piece hname.pieces hpieces hname.nonempty
    (by simp [hterm.nonempty]) fun hmem => hname.unreserved _ hmem (by decide)
  unfold conclusionParts? conclusionPieces
  rw [show ['I', 'S'] = "IS".toList from rfl, hsplit, Option.map_some, spaced_spacedWords]
  unfold weightPieces
  -- a weight of one is left out
  by_cases hone : (weight == 1) = true
  · rw [if_pos hone, if_pos hone, List.append_nil]
    dsimp only
    rw [splitWeight_of_not_mem hterm.pieces
      fun hmem => hterm.unreserved _ hmem (by decide), spaced_spacedWords]
  · rw [if_neg hone, if_neg hone]
    dsimp only
    rw [splitWeight_spaced hterm.pieces hterm.nonempty hweight.isPiece, spaced_spacedWords]

-- The text of a conclusion names an output and one of its terms.
theorem exists_conclusionPieces {c : Controller α} {conclusion : Conclusion α} {text : String}
    (htext : conclusionText c conclusion = .ok text)
    (hnames : ∀ o ∈ c.outputs, o.toVariable.Named) : ∃ o t,
      c.outputs.find? (·.name == conclusion.name) = some o ∧ o.term conclusion.term = .ok t ∧
        t ∈ o.terms ∧ Admitted (spacedWords conclusion.name.toList) ∧
        Admitted (spacedWords t.name.toList) ∧
        text.toList = spaced (conclusionPieces conclusion.name t.name conclusion.weight) := by
  obtain ⟨o, ho, h⟩ := bind_eq_ok.mp htext
  obtain ⟨t, ht, h⟩ := bind_eq_ok.mp h
  obtain rfl := Except.ok.inj h
  have hfind : c.outputs.find? (·.name == conclusion.name) = some o := Controller.output_eq_ok.mp ho
  have hname : o.name = conclusion.name := by simpa using List.find?_some hfind
  have hterm : t ∈ o.terms := List.mem_of_getElem? (Variable.term_eq_ok.mp ht).2
  obtain ⟨hadmitted, hterms⟩ := hnames o (List.mem_of_find?_eq_some hfind)
  rw [hname] at hadmitted
  exact ⟨o, t, hfind, ht, hterm, hadmitted, hterms t hterm,
    toList_conclusionText hadmitted (hterms t hterm)⟩

-- What a conclusion of the controller `c` is read as, where variables and terms have its names.
theorem readConclusion_pieces [Scalar.PlainText α] {c d : Controller α} {conclusion : Conclusion α}
    {text : String} (htext : conclusionText c conclusion = .ok text)
    (hnames : ∀ o ∈ c.outputs, o.toVariable.Named)
    (hweight : Scalar.Legible conclusion.weight)
    (hsame : Forall₂ (fun o o' => o.toVariable.SameTerms o'.toVariable) c.outputs d.outputs) :
    ∃ ps, text.toList = spaced ps ∧ ps ≠ [] ∧ (∀ p ∈ ps, IsPiece p ∧ Quiet p) ∧
      readConclusion d (spaced ps) = .ok (conclusion.reread c.outputs) := by
  obtain ⟨o, t, hfind, ht, hterm, hadmitted, hadmittedTerm, hpieces⟩ :=
    exists_conclusionPieces htext hnames
  obtain ⟨i, hi⟩ := Variable.exists_termIndex? hterm
  obtain ⟨o', ho', hsame'⟩ := Action.find?_of_forall₂
    (p := fun o => o.name == conclusion.name) (fun _ _ hxy => by rw [hxy.1]) hsame hfind
  refine ⟨conclusionPieces conclusion.name t.name conclusion.weight, hpieces,
    by simp [conclusionPieces], pieces_conclusionPieces hadmitted hadmittedTerm hweight, ?_⟩
  have houtput : d.output? conclusion.name = some o' := ho'
  -- the terms are found at the same places in what has been read so far
  have hindex : o'.toVariable.termIndex? t.name = some i := by
    rw [Variable.termIndex?_of_sameTerms hsame', hi]
  unfold readConclusion Conclusion.reread
  rw [conclusionParts?_pieces hadmitted hadmittedTerm hweight, hfind]
  dsimp only
  rw [hadmitted.trim_eq, hadmittedTerm.trim_eq, String.ofList_toList, String.ofList_toList, houtput]
  dsimp only
  rw [hindex]
  dsimp only
  rw [Variable.firstIndex_eq ht hi]
  by_cases hone : (conclusion.weight == 1) = true
  · rw [if_pos hone, if_pos hone]
    rfl
  · rw [if_neg hone, if_neg hone]
    dsimp only
    rw [Scalar.readNumber_text hweight]
    rfl

/-! ## Rules -/

/-- The pieces of a written rule, behind the keyword. -/
def rulePieces (number : Nat) (condition conclusion : List (List Char)) : List (List Char) :=
  (Nat.repr number).toList :: [':'] :: "IF".toList :: (condition ++ "THEN".toList :: conclusion)

theorem digit_ne_colon (number : Nat) : ∀ c ∈ number.repr.toList, c ≠ ':' := by
  intro c hc heq
  have hdigit := isDigit_of_mem_repr number c hc
  rw [heq] at hdigit
  exact absurd hdigit (by decide)

/-- What is written of a rule in front of its condition. -/
def ruleHead (number : Nat) : List Char :=
  "RULE ".toList ++ number.repr.toList ++ " : IF ".toList

theorem ruleBody?_append (number : Nat) (body : List Char) :
    ruleBody? (ruleHead number ++ body) =
      some ((' ' :: body).takeWhile isBlank, (' ' :: body).dropWhile isBlank) := by
  have htext : ruleHead number ++ body = "RULE".toList ++
      (' ' :: (number.repr.toList ++ [' ']) ++ ':' :: ' ' :: (['I', 'F'] ++ ' ' :: body)) := by
    simp [ruleHead]
  have hword : IsPiece ['I', 'F'] := by decide
  have hnumber : ∀ c ∈ ' ' :: (number.repr.toList ++ [' ']), (c != ':') = true := by
    refine List.forall_mem_cons.mpr ⟨by decide, List.forall_mem_append.mpr ⟨fun c hc => ?_, ?_⟩⟩
    · simpa using digit_ne_colon number c hc
    · exact List.forall_mem_singleton.mpr (by decide)
  obtain ⟨d, ds, hds⟩ : ∃ d ds, number.repr.toList ++ [' '] = d :: ds :=
    List.exists_cons_of_ne_nil (by simp)
  unfold ruleBody?
  rw [htext, after?_append]
  dsimp only
  rw [List.takeWhile_append_of_pos hnumber, List.dropWhile_append_of_pos hnumber,
    List.takeWhile_cons_of_neg (by simp), List.dropWhile_cons_of_neg (by simp), List.append_nil,
    hds]
  dsimp only
  rw [if_pos (by decide), trimLeft_cons_of_blank (by decide), trimLeft_append_of_piece hword,
    after?_append]

theorem ruleParts?_pieces (number : Nat) {condition conclusion : List (List Char)}
    (hcondition : Writable condition) (hpieces : ∀ p ∈ conclusion, IsPiece p)
    (hne : conclusion ≠ []) :
    ruleParts? (spaced ("RULE".toList :: rulePieces number condition conclusion)) =
      some (spaced condition, spaced conclusion) := by
  have hthen : IsPiece "THEN".toList := by decide
  have hbody : ∀ p ∈ condition ++ "THEN".toList :: conclusion, IsPiece p :=
    List.forall_mem_append.mpr ⟨hcondition.pieces, List.forall_mem_cons.mpr ⟨hthen, hpieces⟩⟩
  have htext : spaced ("RULE".toList :: rulePieces number condition conclusion) =
      ruleHead number ++ spaced (condition ++ "THEN".toList :: conclusion) := by
    unfold rulePieces ruleHead
    rw [spaced_cons _ (by simp), spaced_cons _ (by simp), spaced_cons _ (by simp),
      spaced_cons _ (by simp)]
    simp
  have hsplit := splitAtWord?_spaced hthen hcondition.pieces hpieces hcondition.nonempty hne
    hcondition.not_mem
  -- one blank stands before the condition, which begins with none
  obtain ⟨b, bs, hbs⟩ := List.exists_cons_of_ne_nil (spaced_ne_nil hbody (by simp))
  have hb : isBlank b = false := head?_spaced hbody b (by rw [hbs]; rfl)
  unfold ruleParts?
  rw [htext, ruleBody?_append]
  dsimp only
  rw [List.takeWhile_cons_of_pos (by decide), List.dropWhile_cons_of_pos (by decide), hbs,
    List.takeWhile_cons_of_neg (by simp [hb]), List.dropWhile_cons_of_neg (by simp [hb]), ← hbs,
    if_neg (by simp), hsplit]

theorem pieces_rulePieces (number : Nat) {condition conclusion : List (List Char)}
    (hcondition : Writable condition) (hpieces : ∀ p ∈ conclusion, IsPiece p ∧ Quiet p) :
    ∀ p ∈ rulePieces number condition conclusion, IsPiece p ∧ Unslashed p := by
  have hletters {word : List Char} (hpiece : IsPiece word) (hopening : '(' ∉ word)
      (hslash : '/' ∉ word) : IsPiece word ∧ Unslashed word :=
    ⟨hpiece, (quiet_of_not_mem hopening hslash).unslashed⟩
  have hdigits := isDigit_of_mem_repr number
  have hnumber : IsPiece number.repr.toList := by
    refine ⟨?_, fun c hc => not_blank_of_isDigit (hdigits c hc)⟩
    rw [Nat.toList_repr]
    exact Nat.toDigits_ne_nil
  unfold rulePieces
  refine List.forall_mem_cons.mpr ⟨hletters hnumber ?_ ?_, List.forall_mem_cons.mpr ⟨?_,
    List.forall_mem_cons.mpr ⟨?_, List.forall_mem_append.mpr ⟨?_, List.forall_mem_cons.mpr
      ⟨?_, fun p hp => ⟨(hpieces p hp).1, (hpieces p hp).2.unslashed⟩⟩⟩⟩⟩⟩
  · exact fun hmem => absurd (hdigits _ hmem) (by decide)
  · exact fun hmem => absurd (hdigits _ hmem) (by decide)
  · exact hletters (by decide) (by decide) (by decide)
  · exact hletters (by decide) (by decide) (by decide)
  · exact fun p hp => ⟨hcondition.pieces p hp, hcondition.unslashed p hp⟩
  · exact hletters (by decide) (by decide) (by decide)

-- What a rule of the controller `c` is read as, where variables and terms have its names.
theorem readRule_pieces [Scalar.PlainText α] {c d : Controller α} {r : Rule α} {line : String}
    {number : Nat} (hline : ruleLine c number r = .ok line)
    (hinputs : ∀ v ∈ c.inputs, v.Named)
    (houtputs : ∀ o ∈ c.outputs, o.toVariable.Named)
    (hweight : Scalar.Legible r.conclusion.weight)
    (hsameInputs : Forall₂ Variable.SameTerms c.inputs d.inputs)
    (hsameOutputs : Forall₂ (fun o o' => o.toVariable.SameTerms o'.toVariable)
      c.outputs d.outputs) :
    ∃ ps, line.toList = '\t' :: spaced ("RULE".toList :: ps) ++ [';'] ∧ ps ≠ [] ∧
      (∀ p ∈ ps, IsPiece p ∧ Unslashed p) ∧
      readRule d (spaced ("RULE".toList :: ps)) = .ok (r.reread c) := by
  obtain ⟨condition, hcondition, h⟩ := bind_eq_ok.mp hline
  obtain ⟨conclusion, hconclusion, h⟩ := bind_eq_ok.mp h
  obtain rfl := Except.ok.inj h
  obtain ⟨tokens, ⟨cs, hcs, hwritable, htokens⟩, hderives⟩ :=
    writes_of_conditionText hcondition fun leaf _ => leaf.named hinputs
  obtain ⟨qs, hqs, hne, hpieces, hread⟩ :=
    readConclusion_pieces hconclusion houtputs hweight hsameOutputs
  refine ⟨rulePieces number cs qs, ?_, by simp [rulePieces], pieces_rulePieces number hwritable
    hpieces, ?_⟩
  · unfold rulePieces
    rw [spaced_cons _ (by simp), spaced_cons _ (by simp), spaced_cons _ (by simp),
      spaced_cons _ (by simp), spaced_append hwritable.nonempty (by simp), spaced_cons _ hne, ← hcs,
      ← hqs]
    simp [String.toList_append]
  · -- the tokens of the text derive the condition, and the reader decides that
    have hcondition' : readCondition d.inputs (Token.ofText condition.toList) =
        .ok (r.condition.reread c.inputs) := by
      rw [hcs, ofText_spaced, htokens, readCondition_eq_ok_iff_derives]
      exact hderives.disjunction.of_sameTerms hsameInputs
    unfold readRule
    rw [ruleParts?_pieces number hwritable (fun p hp => (hpieces p hp).1) hne, ← hcs]
    dsimp only
    rw [hcondition', hread]
    rfl

/-! ## Rules that are read are valid -/

theorem readConclusion_valid {c : Controller α} {cs : List Char} {conclusion : Conclusion α}
    (h : readConclusion c cs = .ok conclusion) : ∃ o, c.output? conclusion.name = some o ∧
      0 ≤ conclusion.term ∧ conclusion.term < o.terms.length := by
  unfold readConclusion at h
  split at h
  · cases h
  · dsimp only at h
    split at h
    · cases h
    · rename_i o ho
      split at h
      · cases h
      · rename_i i hi
        -- the index was found in the terms, so it lies in their range
        have hlt := (List.findIdx?_eq_some_iff_getElem.mp hi).1
        have hplace : 0 ≤ (i : Int) ∧ (i : Int) < o.terms.length := by omega
        split at h
        · obtain rfl := Except.ok.inj h
          exact ⟨o, ho, hplace⟩
        · obtain ⟨weight, -, h⟩ := bind_eq_ok.mp h
          obtain rfl := Except.ok.inj h
          exact ⟨o, ho, hplace⟩

-- A rule that is read refers to variables and terms that are there.
theorem readRule_valid {c : Controller α} {statement : List Char} {r : Rule α}
    (h : readRule c statement = .ok r) : c.Valid r := by
  unfold readRule at h
  split at h
  · cases h
  · obtain ⟨condition, hcondition, h⟩ := bind_eq_ok.mp h
    obtain ⟨conclusion, hconclusion, h⟩ := bind_eq_ok.mp h
    obtain rfl := Except.ok.inj h
    exact ⟨(readCondition_eq_ok_iff_derives.mp hcondition).leaves_valid,
      readConclusion_valid hconclusion⟩

end Fcl

end FuzzyInference
