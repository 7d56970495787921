import FuzzyInference.Proofs.RespacedStatements

/-!
# Rules with other blanks

A rule is cut at its words, its condition is read by its tokens, and the names of its conclusion are
those that stand in it.  None of this depends on how long the other blanks are, as long as the rule
has a number.
-/

namespace FuzzyInference.Fcl

open Text

variable {α : Type} [Scalar α] {cs ds : List Char}

/-! ## Words between blanks -/

theorem afterWord?_eq (word cs : List Char) : afterWord? word cs =
    if cs.head?.any isBlank then
      (after? word (trimLeft cs)).bind fun tail =>
        if tail.head?.any isBlank ∧ trimLeft tail ≠ [] then some (trimLeft tail) else none
    else none := by
  unfold afterWord?
  cases cs with
  | nil => rfl
  | cons c cs =>
    refine if_congr Iff.rfl ?_ rfl
    cases after? word (trimLeft (c :: cs)) with
    | none => rfl
    | some tail =>
      cases tail with
      | nil => rfl
      | cons b rest =>
        by_cases hb : isBlank b = true
        · rw [Option.bind_some, trimLeft_cons_of_blank hb]
          rfl
        · exact (if_neg fun h => hb h.1).trans (if_neg fun h => hb h.1).symm

theorem head?_of_afterWord? {word cs rest : List Char} (h : afterWord? word cs = some rest) :
    ∀ c ∈ rest.head?, isBlank c = false := by
  rw [afterWord?_eq] at h
  split_ifs at h
  obtain ⟨tail, -, htail⟩ := Option.bind_eq_some_iff.mp h
  split_ifs at htail
  obtain rfl := Option.some.inj htail
  exact head?_dropWhile_isBlank tail

theorem afterWord?_of_head? {cs : List Char} (h : ∀ c ∈ cs.head?, isBlank c = false)
    (word : List Char) : afterWord? word cs = none := by
  cases cs with
  | nil => rfl
  | cons c cs => exact afterWord?_of_nonblank (h c rfl) cs

theorem afterWord?_of_respaced (h : Respaced cs ds) (word : List Char)
    (hword : ∀ c ∈ word, isBlank c = false) :
    Option.Rel Respaced (afterWord? word cs) (afterWord? word ds) := by
  rw [afterWord?_eq, afterWord?_eq, h.head?_isBlank]
  split_ifs
  · rcases rel_cases (h.trimLeft.after? word hword) with ⟨hcs, hds⟩ | ⟨tail, tail', hcs, hds, htail⟩
    · rw [hcs, hds]
      exact .none
    · rw [hcs, hds, Option.bind_some, Option.bind_some, htail.head?_isBlank]
      by_cases hnone : trimLeft tail = []
      · rw [if_neg fun h => h.2 hnone, if_neg fun h => h.2 (htail.trimLeft.eq_nil_iff.mp hnone)]
        exact .none
      · have hnone' := mt htail.trimLeft.eq_nil_iff.mpr hnone
        by_cases hblank : tail'.head?.any isBlank = true
        · rw [if_pos ⟨hblank, hnone⟩, if_pos ⟨hblank, hnone'⟩]
          exact .some htail.trimLeft
        · rw [if_neg fun h => hblank h.1, if_neg fun h => hblank h.1]
          exact .none
  · exact .none

-- Where no word follows blanks at the front, the search goes on behind them.
theorem splitAtWord?_run {word bs : List Char} (hbs : ∀ b ∈ bs, isBlank b = true)
    (hnone : afterWord? word (bs ++ cs) = none) :
    afterWord? word cs = none ∧ splitAtWord? word (bs ++ cs) =
      (splitAtWord? word cs).map fun (before, rest) => (bs ++ before, rest) := by
  induction bs with
  | nil => exact ⟨hnone, by simp⟩
  | cons b bs ih =>
    obtain ⟨hb, hbs⟩ := List.forall_mem_cons.mp hbs
    have htail : afterWord? word (bs ++ cs) = none := by
      by_cases hblank : (bs ++ cs).head?.any isBlank = true
      · rw [afterWord?_eq] at hnone ⊢
        rw [if_pos hblank]
        rwa [if_pos (by simpa using hb), List.cons_append, trimLeft_cons_of_blank hb] at hnone
      · rw [afterWord?_eq, if_neg hblank]
    obtain ⟨hcs, hsplit⟩ := ih hbs htail
    refine ⟨hcs, ?_⟩
    rw [List.cons_append, splitAtWord?, htail]
    dsimp only
    rw [hsplit, Option.map_map]
    rfl

theorem splitAtWord?_of_respaced {word : List Char} (hword : ∀ c ∈ word, isBlank c = false)
    (h : Respaced cs ds) (hnone : afterWord? word cs = none) :
    Option.Rel RespacedParts (splitAtWord? word cs) (splitAtWord? word ds) := by
  induction h with
  | nil => exact .none
  | @char c cs ds hc h ih =>
    rw [splitAtWord?, splitAtWord?]
    rcases rel_cases (afterWord?_of_respaced h word hword) with ⟨hcs, hds⟩ | ⟨_, _, hcs, hds, hrest⟩
    · rw [hcs, hds]
      exact rel_map (ih hcs) fun _ _ hparts => ⟨.char hc hparts.1, hparts.2⟩
    · rw [hcs, hds]
      exact .some ⟨.char hc .nil, hrest⟩
  | @run bs bs' cs ds hbs hbs' hkept h ih =>
    have hnone' : afterWord? word (bs' ++ ds) = none := by
      rcases rel_cases (afterWord?_of_respaced (.run hbs hbs' hkept h) word hword) with
        ⟨-, hds⟩ | ⟨_, _, hcs, -, -⟩
      · exact hds
      · cases hnone.symm.trans hcs
    obtain ⟨hcs, hsplit⟩ := splitAtWord?_run hbs.2 hnone
    obtain ⟨-, hsplit'⟩ := splitAtWord?_run hbs'.2 hnone'
    rw [hsplit, hsplit']
    exact rel_map (ih hcs) fun _ _ hparts => ⟨.run hbs hbs' hkept hparts.1, hparts.2⟩

/-! ## The parts of a rule -/

/-- Something stands between the word `RULE` and the colon behind it. -/
def Numbered (statement : List Char) : Prop :=
  ∀ tail ∈ after? "RULE".toList statement, ∃ c ∈ tail.takeWhile (· != ':'), isBlank c = false

instance (statement : List Char) : Decidable (Numbered statement) :=
  -- looks through the characters before the colon, not through all characters
  have (tail : List Char) : Decidable (∃ c ∈ tail.takeWhile (· != ':'), isBlank c = false) :=
    List.decidableBEx (isBlank · = false) _
  Option.decidableForallMem _

theorem ruleBody?_eq (statement : List Char) : ruleBody? statement =
    (after? "RULE".toList statement).bind fun tail =>
      let number := tail.takeWhile (· != ':')
      if number.head?.any isBlank ∧ 2 ≤ number.length then
        (tail.dropWhile (· != ':')).tail?.bind fun rest =>
          (after? ['I', 'F'] (trimLeft rest)).map fun body =>
            (body.takeWhile isBlank, body.dropWhile isBlank)
      else none := by
  unfold ruleBody?
  cases after? "RULE".toList statement with
  | none => rfl
  | some tail =>
    rw [Option.bind_some]
    dsimp only
    generalize tail.takeWhile (· != ':') = number
    generalize tail.dropWhile (· != ':') = rest
    match number, rest with
    | [], _ => rfl
    | [c], _ => simp
    | _ :: _ :: _, [] => simp
    | c :: _ :: _, _ :: rest =>
      refine if_congr (by simp) ?_ rfl
      rw [List.tail?_cons, Option.bind_some]
      cases after? ['I', 'F'] (trimLeft rest) with
      | none => rfl
      | some _ => rfl

-- A number is longer than the blank in front of it.
theorem two_le_length {number : List Char} (h : ∃ c ∈ number, isBlank c = false)
    (hblank : number.head?.any isBlank = true) : 2 ≤ number.length := by
  obtain ⟨c, hc, hword⟩ := h
  match number with
  | [] => cases hc
  | [b] =>
    obtain rfl := List.mem_singleton.mp hc
    simp [hword] at hblank
  | _ :: _ :: _ => simp

theorem ruleBody?_of_respaced (h : Respaced cs ds) (hnumber : Numbered cs) :
    Option.Rel RespacedParts (ruleBody? cs) (ruleBody? ds) := by
  have hcolon := bne_of_isBlank (m := ':') (by decide)
  rw [ruleBody?_eq, ruleBody?_eq]
  rcases rel_cases (h.after? "RULE".toList (by decide)) with
    ⟨hcs, hds⟩ | ⟨tail, tail', hcs, hds, htail⟩
  · rw [hcs, hds]
    exact .none
  rw [hcs, hds, Option.bind_some, Option.bind_some]
  dsimp only
  have hnumbers := htail.takeWhile_of_blank hcolon
  have hsome := hnumber tail hcs
  have hsome' : ∃ c ∈ tail'.takeWhile (· != ':'), isBlank c = false := by
    obtain ⟨c, hc, hword⟩ := hsome
    exact ⟨c, (hnumbers.mem_iff hword).mp hc, hword⟩
  by_cases hblank : (tail.takeWhile (· != ':')).head?.any isBlank = true
  · have hblank' := hnumbers.head?_isBlank ▸ hblank
    rw [if_pos ⟨hblank, two_le_length hsome hblank⟩, if_pos ⟨hblank', two_le_length hsome' hblank'⟩]
    rcases htail.cut hcolon with ⟨hcs, hds⟩ | ⟨c, rest, rest', -, -, hcs, hds, hrest⟩
    · rw [hcs, hds]
      exact .none
    · rw [hcs, hds]
      exact rel_map (hrest.trimLeft.after? _ (by decide)) fun _ _ hbody =>
        ⟨hbody.takeWhile_of_blank fun _ => id, hbody.dropWhile_of_blank fun _ => id⟩
  · rw [if_neg fun h => hblank h.1, if_neg fun h => hblank (hnumbers.head?_isBlank ▸ h.1)]
    exact .none

/-- The parts of a rule on either side of the first `THEN` that has something before it. -/
def splitRule? (statement : List Char) : Option (List Char × List Char) :=
  (ruleBody? statement).bind fun (blanks, body) =>
    if blanks.isEmpty then none else splitAtWord? "THEN".toList body

theorem head?_of_splitAtWord? {word cs before rest : List Char}
    (h : splitAtWord? word cs = some (before, rest)) : ∀ c ∈ rest.head?, isBlank c = false := by
  induction cs generalizing before with
  | nil => cases h
  | cons c cs ih =>
    rw [splitAtWord?] at h
    split at h
    · rename_i hafter
      obtain ⟨-, rfl⟩ := Prod.mk.inj (Option.some.inj h)
      exact head?_of_afterWord? hafter
    · obtain ⟨⟨before', rest'⟩, hsplit, heq⟩ := Option.map_eq_some_iff.mp h
      obtain ⟨-, rfl⟩ := Prod.mk.inj heq
      exact ih hsplit

theorem of_ruleBody? {statement blanks body : List Char}
    (h : ruleBody? statement = some (blanks, body)) :
    (∀ b ∈ blanks, isBlank b = true) ∧ ∀ c ∈ body.head?, isBlank c = false := by
  rw [ruleBody?_eq] at h
  obtain ⟨tail, -, h⟩ := Option.bind_eq_some_iff.mp h
  dsimp only at h
  split_ifs at h
  obtain ⟨rest, -, h⟩ := Option.bind_eq_some_iff.mp h
  obtain ⟨text, -, h⟩ := Option.map_eq_some_iff.mp h
  obtain ⟨rfl, rfl⟩ := Prod.mk.inj h
  exact ⟨fun _ => List.mem_takeWhile_imp, head?_dropWhile_isBlank text⟩

theorem splitRule?_of_respaced (h : Respaced cs ds) (hnumber : Numbered cs) :
    Option.Rel RespacedParts (splitRule? cs) (splitRule? ds) := by
  unfold splitRule?
  rcases rel_cases (ruleBody?_of_respaced h hnumber) with
    ⟨hcs, hds⟩ | ⟨⟨blanks, body⟩, ⟨blanks', body'⟩, hcs, hds, hblanks, hbody⟩
  · rw [hcs, hds]
    exact .none
  · rw [hcs, hds, Option.bind_some, Option.bind_some]
    dsimp only at hblanks hbody ⊢
    by_cases hnone : blanks = []
    · rw [hnone, hblanks.eq_nil_iff.mp hnone]
      exact .none
    · rw [if_neg (by simpa using hnone), if_neg (by simpa using mt hblanks.eq_nil_iff.mpr hnone)]
      exact splitAtWord?_of_respaced (by decide) hbody
        (afterWord?_of_head? (of_ruleBody? hcs).2 _)

theorem head?_of_splitRule? {statement condition conclusion : List Char}
    (h : splitRule? statement = some (condition, conclusion)) :
    ∀ c ∈ conclusion.head?, isBlank c = false := by
  obtain ⟨⟨blanks, body⟩, -, h⟩ := Option.bind_eq_some_iff.mp h
  dsimp only at h
  split_ifs at h
  exact head?_of_splitAtWord? h

/-! ## Conditions and conclusions -/

-- Blanks in front of a text end the word before it.
theorem scan_blanks {bs : List Char} (hbs : ∀ b ∈ bs, isBlank b = true) (cs : List Char) :
    Token.scan [] (bs ++ cs) = Token.scan [] cs := by
  induction bs with
  | nil => rfl
  | cons b bs ih =>
    obtain ⟨hb, hbs⟩ := List.forall_mem_cons.mp hbs
    rw [List.cons_append, scan_blank hb]
    exact ih hbs

theorem scan_of_respaced (h : Respaced cs ds) (begun : List Char) :
    Token.scan begun cs = Token.scan begun ds := by
  induction h generalizing begun with
  | nil => rfl
  | @char c cs ds hc _ ih =>
    by_cases hopening : c = '('
    · subst hopening
      rw [scan_opening, scan_opening, ih]
    by_cases hclosing : c = ')'
    · subst hclosing
      rw [scan_closing, scan_closing, ih]
    rw [scan_other hopening hclosing, scan_other hopening hclosing, ih, ih]
  | run hbs hbs' _ _ ih =>
    obtain ⟨b, bs, rfl, hb⟩ := hbs.exists_cons
    obtain ⟨b', bs', rfl, hb'⟩ := hbs'.exists_cons
    rw [List.cons_append, scan_blank hb, scan_blanks (List.forall_mem_cons.mp hbs.2).2, ih,
      List.cons_append, scan_blank hb', scan_blanks (List.forall_mem_cons.mp hbs'.2).2]

theorem splitWeight_of_respaced (h : Respaced cs ds) :
    Respaced (splitWeight cs).1 (splitWeight ds).1 ∧ (splitWeight cs).2 = (splitWeight ds).2 := by
  have hstop : ∀ b, isBlank b = true → (!isBlank b) = false := fun b hb => by simp [hb]
  obtain ⟨hweight, hrest⟩ := h.reverse.span_eq hstop
  unfold splitWeight
  dsimp only
  rw [hweight]
  rcases rel_cases (afterWord?_of_respaced hrest "WITH".toList.reverse (by decide)) with
    ⟨hcs, hds⟩ | ⟨_, _, hcs, hds, hterm⟩
  · rw [hcs, hds]
    exact ⟨h, rfl⟩
  · rw [hcs, hds]
    exact ⟨hterm.reverse, rfl⟩

/-- The variable and the term of a conclusion, as they stand in it. -/
def conclusionNames (cs : List Char) : List (List Char) :=
  match conclusionParts? cs with
  | none => []
  | some (name, term, _) => [trim name, trim term]

theorem readConclusion_of_respaced (c : Controller α) (h : Respaced cs ds)
    (hstart : ∀ c ∈ cs.head?, isBlank c = false)
    (hnames : ∀ name ∈ conclusionNames cs, SingleSpaced name) :
    readConclusion c cs = readConclusion c ds := by
  unfold conclusionNames at hnames
  unfold readConclusion
  have hparts : Option.Rel (fun parts parts' => Respaced parts.1 parts'.1 ∧
      Respaced parts.2.1 parts'.2.1 ∧ parts.2.2 = parts'.2.2)
      (conclusionParts? cs) (conclusionParts? ds) :=
    rel_map (splitAtWord?_of_respaced (by decide) h (afterWord?_of_head? hstart _))
      fun _ _ hsplit => ⟨hsplit.1, splitWeight_of_respaced hsplit.2⟩
  rcases rel_cases hparts with
    ⟨hcs, hds⟩ | ⟨⟨name, term, weight⟩, ⟨name', term', _⟩, hcs, hds, hname, hterm, rfl⟩
  · rw [hcs, hds]
  · rw [hcs] at hnames ⊢
    rw [hds]
    dsimp only at hname hterm hnames ⊢
    rw [hname.trim.eq_of_singleSpaced (hnames _ (by simp)),
      hterm.trim.eq_of_singleSpaced (hnames _ (by simp))]

-- A rule with nothing but blanks before its `THEN` is refused either way.
theorem toOption_readRule (c : Controller α) (statement : List Char) :
    (readRule c statement).toOption = (splitRule? statement).bind fun parts =>
      (readCondition c.inputs (Token.ofText parts.1)).toOption.bind fun condition =>
        (readConclusion c parts.2).toOption.map fun conclusion => ⟨condition, conclusion, 0⟩ := by
  have hbind (condition : Condition) (result : Except Problem (Conclusion α)) :
      (result >>= fun conclusion =>
        (pure ⟨condition, conclusion, 0⟩ : Except Problem (Rule α))).toOption =
      result.toOption.map fun conclusion => ⟨condition, conclusion, 0⟩ := by
    cases result with
    | error problem => rfl
    | ok conclusion => rfl
  unfold readRule ruleParts? splitRule?
  cases hbody : ruleBody? statement with
  | none => rfl
  | some parts =>
    obtain ⟨blanks, body⟩ := parts
    rw [Option.bind_some]
    dsimp only
    by_cases hnone : blanks.isEmpty = true
    · rw [if_pos hnone, if_pos hnone]
      rfl
    rw [if_neg hnone, if_neg hnone]
    cases splitAtWord? "THEN".toList body with
    | some parts =>
      rw [Option.bind_some]
      dsimp only
      rw [toOption_bind]
      exact congrArg _ (funext fun condition => hbind condition _)
    | none =>
      rw [Option.bind_none]
      dsimp only
      split_ifs
      · cases afterWord? "THEN".toList (blanks ++ body) with
        | none => rfl
        | some rest =>
          have htokens : Token.ofText (blanks.take 1) = [] := by
            have hblanks : ∀ b ∈ blanks.take 1, isBlank b = true := fun b hb =>
              (of_ruleBody? hbody).1 b (List.mem_of_mem_take hb)
            have htokens := scan_blanks hblanks []
            rwa [List.append_nil] at htokens
          rw [Option.map_some]
          dsimp only
          rw [htokens]
          rfl
      · rfl

theorem readRule_of_respaced (c : Controller α) (h : Respaced cs ds) (hnumber : Numbered cs)
    (hnames : ∀ parts ∈ splitRule? cs, ∀ name ∈ conclusionNames parts.2, SingleSpaced name) :
    (readRule c cs).toOption = (readRule c ds).toOption := by
  rw [toOption_readRule, toOption_readRule]
  rcases rel_cases (splitRule?_of_respaced h hnumber) with
    ⟨hcs, hds⟩ | ⟨⟨condition, conclusion⟩, ⟨condition', conclusion'⟩, hcs, hds, hcondition, hrest⟩
  · rw [hcs, hds]
  · rw [hcs, hds, Option.bind_some, Option.bind_some]
    dsimp only at hcondition hrest ⊢
    rw [readConclusion_of_respaced c hrest (head?_of_splitRule? hcs) (hnames _ hcs)]
    unfold Token.ofText
    rw [scan_of_respaced hcondition]

end FuzzyInference.Fcl
