import FuzzyInference.Proofs.Comments
import FuzzyInference.Proofs.RespacedRules
import FuzzyInference.Proofs.TextOrder

/-!
# Lines with other blanks

A line whose names are words between single spaces is read with the same result however long its
other blanks are, or refused either way.
-/

namespace FuzzyInference

/-- The same result, or faults at the same place: of one line, or the same fault. -/
inductive SameAnswer {β : Type} : Except Fault β → Except Fault β → Prop where
  | ok (b : β) : SameAnswer (.ok b) (.ok b)
  | fault (f : Fault) : SameAnswer (.error f) (.error f)
  | line (number : Int) (line line' : String) (problem problem' : Fcl.Problem) :
    SameAnswer (.error (.unreadable number line problem))
      (.error (.unreadable number line' problem'))

namespace SameAnswer

variable {β γ : Type}

theorem refl (x : Except Fault β) : SameAnswer x x := by
  cases x with
  | ok b => exact .ok b
  | error f => exact .fault f

theorem bind {x y : Except Fault β} {f g : β → Except Fault γ} (h : SameAnswer x y)
    (hfg : ∀ b, SameAnswer (f b) (g b)) : SameAnswer (x >>= f) (y >>= g) := by
  cases h with
  | ok b => exact hfg b
  | fault f => exact .fault f
  | line number line line' problem problem' => exact .line number line line' problem problem'

end SameAnswer

namespace Fcl

open Text

variable {α : Type} [Scalar α] {cs ds : List Char}

/-! ## What a line says -/

theorem after?_pair {a b c : Char} {cs : List Char} (h : ∀ rest, c = a → cs = b :: rest → False) :
    after? [a, b] (c :: cs) = none := by
  cases hafter : after? [a, b] (c :: cs) with
  | none => rfl
  | some rest =>
    obtain ⟨hc, hcs⟩ := List.cons.inj (eq_append_of_after? hafter)
    exact absurd hcs (h rest hc)

theorem afterComment?_eq (cs : List Char) :
    afterComment? cs = (splitAt? ['*', ')'] cs).map (·.2) := by
  fun_induction afterComment? cs with
  | case1 rest =>
    rw [splitAt?]
    rfl
  | case2 c cs hnot ih =>
    rw [splitAt?, after?_pair hnot, ih]
    dsimp only
    rw [Option.map_map]
    rfl
  | case3 => rfl

theorem beforeSlashes_eq (cs : List Char) :
    beforeSlashes cs = ((splitAt? ['/', '/'] cs).map (·.1)).getD cs := by
  fun_induction beforeSlashes cs with
  | case1 => rfl
  | case2 rest =>
    rw [splitAt?]
    rfl
  | case3 c cs hnot ih =>
    rw [splitAt?, after?_pair hnot, ih]
    cases splitAt? ['/', '/'] cs with
    | none => rfl
    | some parts => rfl

theorem afterComment?_of_respaced (h : Respaced cs ds) :
    Option.Rel Respaced (afterComment? cs) (afterComment? ds) := by
  rw [afterComment?_eq, afterComment?_eq]
  exact rel_map (h.splitAt? _ (by decide)) fun _ _ hparts => hparts.2

-- A comment becomes a space in both texts.
theorem dropComments_of_respaced {cs ds : List Char} (h : Respaced cs ds) :
    Respaced (dropComments cs) (dropComments ds) := by
  cases h with
  | nil =>
    rw [dropComments]
    exact .nil
  | @char c cs ds hc h =>
    by_cases hopens : c = '(' ∧ cs.head? = some '*'
    · obtain ⟨rfl, hstar⟩ := hopens
      obtain ⟨body, hcs⟩ := List.head?_eq_some_iff.mp hstar
      have hlen : cs.length = body.length + 1 := congrArg List.length hcs
      have hwhole := dropComments_of_respaced h
      rw [hcs] at h hwhole ⊢
      obtain ⟨body', rfl, hbody⟩ := h.of_cons (by decide)
      rcases rel_cases (afterComment?_of_respaced hbody) with
        ⟨hcs, hds⟩ | ⟨rest, rest', hcs, hds, hrest⟩
      · rw [dropComments_unclosed hcs, dropComments_unclosed hds]
        exact .char hc hwhole
      · rw [dropComments_closed hcs, dropComments_closed hds]
        have hlt := length_afterComment?_lt hcs
        exact (Respaced.refl [' ']).append (dropComments_of_respaced hrest)
    · have hkept {rest : List Char} (h : rest.head? = some '*' → cs.head? = some '*') :
          dropComments (c :: rest) = c :: dropComments rest :=
        dropComments.eq_3 _ _ fun body hc hbody => hopens ⟨hc, h (by rw [hbody]; rfl)⟩
      rw [hkept id, hkept fun hds => ?_]
      · exact .char hc (dropComments_of_respaced h)
      · rcases h.cons_inv (c := '*') (by decide) with ⟨body, _, rfl, -, -⟩ | ⟨-, hnot⟩
        · rfl
        · exact absurd hds hnot
  | run hbs hbs' hkept h =>
    have hpos := List.length_pos_iff.mpr hbs.1
    rw [dropComments_append_left (hbs.not_mem (by decide)),
      dropComments_append_left (hbs'.not_mem (by decide))]
    exact .run hbs hbs' hkept (dropComments_of_respaced h)
termination_by cs.length
decreasing_by all_goals simp only [List.length_cons, List.length_append]; omega

theorem content_of_respaced (h : Respaced cs ds) : Respaced (content cs) (content ds) := by
  have hdropped := dropComments_of_respaced h
  unfold content
  rw [beforeSlashes_eq, beforeSlashes_eq]
  rcases rel_cases (hdropped.splitAt? ['/', '/'] (by decide)) with
    ⟨hcs, hds⟩ | ⟨_, _, hcs, hds, hbefore, -⟩
  · rw [hcs, hds]
    exact hdropped.trim
  · rw [hcs, hds]
    exact hbefore.trim

theorem not_word_of_isBlank {c : Char} (h : isBlank c = true) :
    isWordStart c = false ∧ isWordChar c = false := by
  have hall : ∀ n ∈ Numeral.blankCodes,
      isWordStart (Char.ofNat n) = false ∧ isWordChar (Char.ofNat n) = false := by decide
  have hword := hall c.toNat (Numeral.mem_blankCodes h)
  rwa [Char.ofNat_toNat] at hword

theorem not_blank_leadingWord (cs : List Char) : ∀ c ∈ leadingWord cs, isBlank c = false := by
  have hnot {c : Char} (h : isWordStart c = true ∨ isWordChar c = true) : isBlank c = false := by
    by_contra hblank
    have hword := not_word_of_isBlank (c := c) (by simpa using hblank)
    simp [hword.1, hword.2] at h
  unfold leadingWord
  split
  · exact List.forall_mem_nil _
  · split_ifs with hstart
    · exact List.forall_mem_cons.mpr ⟨hnot (.inl hstart), fun d hd =>
        hnot (.inr (List.mem_takeWhile_imp hd))⟩
    · exact List.forall_mem_nil _

theorem leadingWord_of_respaced (h : Respaced cs ds) : leadingWord cs = leadingWord ds := by
  cases h with
  | nil => rfl
  | char _ h =>
    unfold leadingWord
    dsimp only
    rw [(h.span_eq fun _ hb => (not_word_of_isBlank hb).2).1]
  | run hbs hbs' =>
    obtain ⟨b, bs, rfl, hb⟩ := hbs.exists_cons
    obtain ⟨b', bs', rfl, hb'⟩ := hbs'.exists_cons
    unfold leadingWord
    dsimp only [List.cons_append]
    rw [if_neg (by simp [(not_word_of_isBlank hb).1]),
      if_neg (by simp [(not_word_of_isBlank hb').1])]

theorem behindWord_of_respaced (h : Respaced cs ds) :
    Respaced (cs.drop (leadingWord cs).length) (ds.drop (leadingWord ds).length) := by
  obtain ⟨tail, htail⟩ := leadingWord_prefix cs
  rw [← leadingWord_of_respaced h]
  rw [← htail] at h
  obtain ⟨tail', hds, htails⟩ := h.of_append (not_blank_leadingWord cs)
  rw [hds, List.drop_left]
  nth_rewrite 2 [← htail]
  rwa [List.drop_left]

/-- Two lines of one number that differ in their blanks. -/
structure RespacedLine (line line' : Line) : Prop where
  number : line.number = line'.number
  content : Respaced line.content line'.content

namespace RespacedLine

variable {line line' : Line}

theorem content_isEmpty (h : RespacedLine line line') :
    line.content.isEmpty = line'.content.isEmpty := by
  rw [Bool.eq_iff_iff, List.isEmpty_iff, List.isEmpty_iff]
  exact h.content.eq_nil_iff

theorem keyword (h : RespacedLine line line') : line.keyword = line'.keyword :=
  congrArg String.ofList (leadingWord_of_respaced h.content)

theorem subject (h : RespacedLine line line') (hname : SingleSpaced line.subject.toList) :
    line.subject = line'.subject := by
  unfold Line.subject at hname ⊢
  rw [String.toList_ofList] at hname
  rw [(behindWord_of_respaced h.content).trim.eq_of_singleSpaced hname]

theorem statement (h : RespacedLine line line') :
    Option.Rel Respaced line.statement.toOption line'.statement.toOption := by
  unfold Line.statement
  rcases h.content.reverse.cons_inv (c := ';') (by decide) with
    ⟨cs, ds, hcs, hds, hrest⟩ | ⟨hcs, hds⟩
  · rw [List.reverse_eq_cons_iff] at hcs hds
    rw [hcs, hds, List.getLast?_concat, List.getLast?_concat, if_pos rfl, if_pos rfl,
      List.dropLast_concat, List.dropLast_concat]
    exact .some hrest.reverse.trim
  · rw [List.head?_reverse] at hcs hds
    rw [if_neg hcs, if_neg hds]
    exact .none

theorem statement_bind {β : Type} (h : RespacedLine line line') {f : List Char → Except Problem β}
    (hf : ∀ {cs ds}, cs ∈ line.statement.toOption → Respaced cs ds →
      (f cs).toOption = (f ds).toOption) :
    (line.statement >>= f).toOption = (line'.statement >>= f).toOption := by
  rw [toOption_bind, toOption_bind]
  rcases rel_cases h.statement with ⟨hcs, hds⟩ | ⟨cs, ds, hcs, hds, hstatement⟩
  · rw [hcs, hds]
  · rw [hcs, hds]
    exact hf hcs hstatement

theorem error {β : Type} (h : RespacedLine line line') (problem problem' : Problem) :
    SameAnswer (.error (line.fault problem) : Except Fault β) (.error (line'.fault problem')) := by
  unfold Line.fault
  rw [h.number]
  exact .line _ _ _ _ _

theorem judge {β : Type} (h : RespacedLine line line') {x y : Except Problem β}
    (hxy : x.toOption = y.toOption) : SameAnswer (line.judge x) (line'.judge y) := by
  cases x with
  | error problem =>
    cases y with
    | error problem' => exact h.error problem problem'
    | ok b => cases hxy
  | ok b =>
    cases y with
    | error problem' => cases hxy
    | ok b' =>
      obtain rfl := Option.some.inj hxy
      exact .ok b

theorem blame {β : Type} (h : RespacedLine line line') (x : Except Fault β) :
    SameAnswer (blame line x) (blame line' x) := by
  unfold Fcl.blame
  split
  · exact h.error _ _
  · exact .refl x

end RespacedLine

/-! ## Reading a line -/

/-- The names that a line gives, in the block that is open in front of it. -/
def namesIn (place : Option Block × Line) : List (List Char) :=
  let statement := place.2.statement.toOption
  match place.1 with
  | none =>
    if place.2.keyword ∈ ["FUNCTION_BLOCK", "FUZZIFY", "DEFUZZIFY"] then
      [place.2.subject.toList]
    else []
  | some .inputs | some .outputs => (place.2.declared?.map String.toList).toList
  | some .fuzzify | some .defuzzify => ((statement.bind termParts?).map (·.1)).toList
  | some .rules => ((statement.bind splitRule?).map (conclusionNames ·.2)).getD []

/-- A line whose names are words between single spaces; a rule has a number, too. -/
structure Tidy (place : Option Block × Line) : Prop where
  names : ∀ name ∈ namesIn place, SingleSpaced name
  number : place.1 = some .rules → ∀ statement ∈ place.2.statement.toOption, Numbered statement

instance (place : Option Block × Line) : Decidable (Tidy place) :=
  decidable_of_iff ((∀ name ∈ namesIn place, SingleSpaced name) ∧ (place.1 = some .rules →
    ∀ statement ∈ place.2.statement.toOption, Numbered statement))
    ⟨fun h => ⟨h.1, h.2⟩, fun h => ⟨h.names, h.number⟩⟩

variable {line line' : Line} {p : Progress α}

omit [Scalar α] in
theorem openDescription_same (h : RespacedLine line line') (block : Block)
    (hsubject : line.subject = line'.subject) :
    SameAnswer (openDescription line block p) (openDescription line' block p) := by
  unfold openDescription
  rw [hsubject]
  dsimp only
  by_cases hrepeated : p.described.contains line'.subject = true
  · rw [if_pos hrepeated, if_pos hrepeated]
    exact h.error _ _
  · rw [if_neg hrepeated, if_neg hrepeated]
    split
    · split_ifs
      · exact .refl _
      · exact h.error _ _
    · split_ifs
      · exact .refl _
      · exact h.error _ _

omit [Scalar α] in
theorem readOutside_same (h : RespacedLine line line') (htidy : Tidy (none, line)) :
    SameAnswer (readOutside line p) (readOutside line' p) := by
  have hsubject (hmem : line.keyword ∈ ["FUNCTION_BLOCK", "FUZZIFY", "DEFUZZIFY"]) :
      line.subject = line'.subject := by
    refine h.subject (htidy.names _ ?_)
    unfold namesIn
    dsimp only
    rw [if_pos hmem]
    exact List.mem_singleton_self _
  unfold readOutside
  dsimp only
  rw [← h.keyword]
  split_ifs with hblock _ _ _ _ hfuzzify hdefuzzify
  · rw [hsubject (by rw [hblock]; decide)]
    exact .refl _
  · exact .refl _
  · exact .refl _
  · exact .refl _
  · exact .refl _
  · exact openDescription_same h _ (hsubject (by rw [hfuzzify]; decide))
  · exact openDescription_same h _ (hsubject (by rw [hdefuzzify]; decide))
  · exact h.error _ _
  · exact h.error _ _

theorem readDeclaration_same {block : Block} (hblock : block = .inputs ∨ block = .outputs)
    (h : RespacedLine line line') (htidy : Tidy (some block, line)) :
    SameAnswer (readDeclaration line block p) (readDeclaration line' block p) := by
  unfold readDeclaration
  rw [← h.keyword]
  by_cases hend : line.keyword = "END_VAR"
  · rw [if_pos hend, if_pos hend]
    exact .refl _
  · rw [if_neg hend, if_neg hend]
    refine (h.judge (h.statement_bind fun {cs ds} hcs hrespaced => ?_)).bind fun name =>
      (h.blame _).bind fun c => .refl _
    rw [declaredName_of_respaced hrespaced fun name hname => htidy.names _ ?_]
    have hdeclared : line.declared? = some name := by
      unfold Line.declared?
      rw [if_neg hend, toOption_bind, hcs]
      exact hname
    rcases hblock with rfl | rfl
    · simp [namesIn, hdeclared]
    · simp [namesIn, hdeclared]

theorem termStatement_same (h : RespacedLine line line')
    (hnames : ∀ name ∈ ((line.statement.toOption.bind termParts?).map (·.1)).toList,
      SingleSpaced name) :
    SameAnswer (line.judge (line.statement >>= readTerm) : Except Fault (Term α))
      (line'.judge (line'.statement >>= readTerm)) := by
  refine h.judge (h.statement_bind fun {cs ds} hcs hrespaced => ?_)
  refine readTerm_of_respaced hrespaced fun parts hparts => hnames _ ?_
  rw [show line.statement.toOption = some cs from hcs, Option.bind_some,
    show termParts? cs = some parts from hparts]
  exact List.mem_singleton_self _

theorem readFuzzify_same {name : String} (h : RespacedLine line line')
    (htidy : Tidy (some .fuzzify, line)) :
    SameAnswer (readFuzzify line name p) (readFuzzify line' name p) := by
  unfold readFuzzify
  dsimp only
  rw [← h.keyword]
  split_ifs
  · exact .refl _
  · exact (termStatement_same h htidy.names).bind fun term => .refl _
  · exact h.error _ _

theorem setting_same {β : Type} (h : RespacedLine line line') (choice : Choice β) :
    SameAnswer (line.judge (line.statement >>= readSetting line.keyword choice))
      (line'.judge (line'.statement >>= readSetting line.keyword choice)) := by
  refine h.judge (h.statement_bind fun {cs ds} hcs hrespaced => ?_)
  rw [readSetting_of_respaced choice _ hrespaced]
  unfold Line.keyword
  rw [String.toList_ofList]
  exact not_blank_leadingWord _

theorem readDefuzzify_same {name : String} (h : RespacedLine line line')
    (htidy : Tidy (some .defuzzify, line)) :
    SameAnswer (readDefuzzify line name p) (readDefuzzify line' name p) := by
  unfold readDefuzzify
  dsimp only
  rw [← h.keyword]
  split_ifs
  · unfold closeDefuzzify
    dsimp only
    split_ifs
    · exact h.error _ _
    · exact .refl _
  · exact (termStatement_same h htidy.names).bind fun term => .refl _
  · exact (setting_same h _).bind fun method => .refl _
  · exact (h.judge (h.statement_bind fun _ => readDefault_of_respaced)).bind fun x => .refl _
  · exact h.error _ _

theorem readRuleLine_same (h : RespacedLine line line') (htidy : Tidy (some .rules, line)) :
    SameAnswer (readRuleLine line p) (readRuleLine line' p) := by
  unfold readRuleLine
  dsimp only
  rw [← h.keyword]
  split_ifs
  · exact .refl _
  · exact (setting_same h _).bind fun norm => .refl _
  · exact (setting_same h _).bind fun norm => .refl _
  · exact (setting_same h _).bind fun activation => .refl _
  · exact (setting_same h _).bind fun accumulation => .refl _
  · refine (h.judge (h.statement_bind fun {cs ds} hcs hrespaced => ?_)).bind fun r => .refl _
    refine readRule_of_respaced _ hrespaced (htidy.number rfl _ hcs) fun parts hparts name hname =>
      htidy.names _ ?_
    unfold namesIn
    dsimp only
    rw [show line.statement.toOption = some cs from hcs, Option.bind_some,
      show splitRule? cs = some parts from hparts]
    exact hname
  · exact h.error _ _

-- What a tidy line says does not depend on its other blanks.
theorem readLine_same (h : RespacedLine line line') (htidy : Tidy (p.openBlock, line)) :
    SameAnswer (readLine line p) (readLine line' p) := by
  have hopen {block : Block} {subject : String} (hblock : p.block = some ⟨block, subject⟩) :
      Tidy (some block, line) := openBlock_of_block hblock ▸ htidy
  unfold readLine
  rw [h.content_isEmpty]
  split_ifs
  · exact .refl _
  · split
    · rename_i hclosed
      unfold Progress.openBlock at htidy
      rw [hclosed] at htidy
      exact readOutside_same h htidy
    · exact readDeclaration_same (.inl rfl) h (hopen ‹_›)
    · exact readDeclaration_same (.inr rfl) h (hopen ‹_›)
    · exact readFuzzify_same h (hopen ‹_›)
    · exact readDefuzzify_same h (hopen ‹_›)
    · exact readRuleLine_same h (hopen ‹_›)

end Fcl

end FuzzyInference
