import FuzzyInference.Proofs.Grids
import FuzzyInference.Proofs.Points
import FuzzyInference.Proofs.WrittenBlocks

/-!
# Outputs that are written

The block that describes an output, read into the output that a declaration has made.
-/

namespace FuzzyInference

variable {α : Type} [Scalar α]

/-- An output whose lines can be read. -/
structure OutputVariable.Writable (o : OutputVariable α) : Prop extends o.toVariable.Writable where
  nonempty : o.terms ≠ []
  defaultValue : Scalar.Legible o.defaultValue

/-- The output that is read where an output has been written. -/
def OutputVariable.reread (o : OutputVariable α) : OutputVariable α :=
  { o with toVariable := o.toVariable.reread, defaultValue := Scalar.reread o.defaultValue }

/-- What a declared output becomes when the lines of a written one are read into it. -/
def OutputVariable.filled (made o : OutputVariable α) : OutputVariable α :=
  { made.replaceTerms (o.terms.map Term.reread) with
    method := o.method, defaultValue := Scalar.reread o.defaultValue }

theorem OutputVariable.outline_filled {made o : OutputVariable α} (h : made.name = o.name) :
    (made.filled o).outline = o.reread.outline := by
  show ((made.name, _), _, _) = _
  rw [h]
  rfl

-- Terms that can be written are read with points, so that a grid can be built for them.
theorem Term.Writable.reread_points {t : Term α} (h : t.Writable) : t.reread.points ≠ [] := by
  unfold Term.reread Term.ofPoints
  rw [ne_eq, Point.sort_eq_nil, List.map_eq_nil_iff]
  exact h.nonempty

namespace Fcl

open Text
open List (Forall₂)

/-! ## Settings -/

/-- A word that is the value of a setting. -/
def IsLabel (label : String) : Prop :=
  IsPiece label.toList ∧ '(' ∉ label.toList ∧ '/' ∉ label.toList

instance (label : String) : Decidable (IsLabel label) := by
  unfold IsLabel
  infer_instance

-- A line with a setting leads where every line leads that has this setting under its keyword.
theorem readsLine_setting {β : Type} {word : String} (head : String) {label : String}
    {choice : Choice β} {b : β} {p q : Progress α}
    (hword : IsKeyword word.toList) (hlabel : IsLabel label)
    (hhead : head.toList = '\t' :: word.toList ++ " : ".toList)
    (hread : readSetting word choice (spaced [word.toList, [':'], label.toList]) = .ok b)
    (h : ∀ line : Line, line.content.isEmpty = false → line.keyword = word →
      line.judge (line.statement >>= readSetting word choice) = .ok b →
      readLine line p = .ok (q, [])) :
    ReadsLine (head ++ label ++ ";").toList p q := by
  intro n
  have htext : (head ++ label ++ ";").toList =
      '\t' :: spaced [word.toList, [':'], label.toList] ++ [';'] := by
    rw [String.toList_append, String.toList_append, hhead, spaced_cons _ (by simp),
      spaced_cons _ (by simp), spaced_singleton]
    simp
  have hpieces : ∀ p ∈ [[':'], label.toList], IsPiece p ∧ Quiet p := by
    refine List.forall_mem_cons.mpr ⟨⟨by decide, quiet_of_not_mem (by decide)
      (by decide)⟩, List.forall_mem_singleton.mpr ⟨hlabel.1, ?_⟩⟩
    exact quiet_of_not_mem hlabel.2.1 hlabel.2.2
  rw [htext]
  obtain ⟨hcontent, hkeyword, hstatement⟩ := ofRaw_statement hword hpieces (by simp) n
  exact ⟨[], h _ hcontent hkeyword (judge_statement hstatement hread)⟩

theorem isLabel_method (method : Defuzzification) : IsLabel method.label := by
  cases method <;> decide

/-! ## Outputs -/

section Outputs

variable {c : Controller α} {described : List String} {before after : List (OutputVariable α)}
  {o : OutputVariable α}

theorem readsLine_outputTerm [Scalar.PlainText α] {t : Term α} (h : t.Writable)
    (hbefore : o.name ∉ before.map (·.name)) :
    ReadsLine (termLine t).toList
      ⟨{ c with outputs := before ++ o :: after }, some ⟨.defuzzify, o.name⟩, described⟩
      ⟨{ c with outputs := before ++ o.addTerm t.reread :: after }, some ⟨.defuzzify, o.name⟩,
        described⟩ := by
  intro n
  obtain ⟨hcontent, hkeyword, hjudge⟩ := judge_term h n
  refine ⟨[], ?_⟩
  rw [readLine_defuzzify hcontent]
  unfold readDefuzzify
  rw [hkeyword]
  refine bind_eq_ok.mpr ⟨t.reread, hjudge, ?_⟩
  rw [changeOutput_append rfl hbefore]
  rfl

theorem readsLine_method (method : Defuzzification) (hbefore : o.name ∉ before.map (·.name)) :
    ReadsLine ("\tMETHOD : " ++ method.label ++ ";").toList
      ⟨{ c with outputs := before ++ o :: after }, some ⟨.defuzzify, o.name⟩, described⟩
      ⟨{ c with outputs := before ++ { o with method } :: after }, some ⟨.defuzzify, o.name⟩,
        described⟩ := by
  refine readsLine_setting "\tMETHOD : " (by decide) (isLabel_method method) rfl
    (readSetting_method method) fun line hcontent hkeyword hjudge => ?_
  rw [readLine_defuzzify hcontent]
  unfold readDefuzzify
  rw [hkeyword]
  refine bind_eq_ok.mpr ⟨method, hjudge, ?_⟩
  rw [changeOutput_append rfl hbefore]
  rfl

theorem readsLine_default [Scalar.PlainText α] {x : α} (h : Scalar.Legible x)
    (hbefore : o.name ∉ before.map (·.name)) :
    ReadsLine ("\tDEFAULT := " ++ Scalar.text x ++ ";").toList
      ⟨{ c with outputs := before ++ o :: after }, some ⟨.defuzzify, o.name⟩, described⟩
      ⟨{ c with outputs := before ++ { o with defaultValue := Scalar.reread x } :: after },
        some ⟨.defuzzify, o.name⟩, described⟩ := by
  intro n
  have htext : ("\tDEFAULT := " ++ Scalar.text x ++ ";").toList =
      '\t' :: spaced ["DEFAULT".toList, [':', '='], (Scalar.text x).toList] ++ [';'] := by
    rw [String.toList_append, String.toList_append, spaced_cons _ (by simp),
      spaced_cons _ (by simp), spaced_singleton]
    simp
  have hpieces : ∀ p ∈ [[':', '='], (Scalar.text x).toList], IsPiece p ∧ Quiet p := by
    refine List.forall_mem_cons.mpr ⟨⟨by decide, quiet_of_not_mem (by decide)
      (by decide)⟩, List.forall_mem_singleton.mpr ⟨h.isPiece, ?_⟩⟩
    exact quiet_of_not_mem (h.not_mem (by decide)) (h.not_mem (by decide))
  have hword : IsKeyword "DEFAULT".toList := by decide
  rw [htext]
  obtain ⟨hcontent, hkeyword, hstatement⟩ := ofRaw_statement hword hpieces (by simp) n
  refine ⟨[], ?_⟩
  rw [readLine_defuzzify hcontent]
  unfold readDefuzzify
  rw [hkeyword]
  refine bind_eq_ok.mpr ⟨_, judge_statement hstatement (readDefault_pieces h), ?_⟩
  rw [changeOutput_append rfl hbefore]
  rfl

-- The end of the block builds the grid.
theorem readsLine_endDefuzzify {o' : OutputVariable α} (hterms : o.terms ≠ [])
    (hgrid : o.discretize = .ok o') (hbefore : o.name ∉ before.map (·.name)) :
    ReadsLine "END_DEFUZZIFY".toList
      ⟨{ c with outputs := before ++ o :: after }, some ⟨.defuzzify, o.name⟩, described⟩
      ⟨{ c with outputs := before ++ o' :: after }, none, described⟩ := by
  have hfound := Controller.output?_append (c := { c with outputs := before ++ o :: after }) rfl
    hbefore
  refine readsLine_keyword (by decide) fun line hcontent hkeyword => ?_
  rw [readLine_defuzzify hcontent]
  unfold readDefuzzify
  rw [hkeyword]
  show closeDefuzzify _ _ _ = _
  unfold closeDefuzzify
  dsimp only
  rw [if_neg (by simp [hfound, hterms]), Controller.onOutput_append rfl hbefore,
    OutputVariable.buildGrid_eq, Action.change_of_ok hgrid]
  rfl

theorem readsLine_defuzzify {name : String} (hname : Admitted (spacedWords name.toList))
    (hnew : name ∉ described) (hdeclared : name ∈ c.outputs.map (·.name)) :
    ReadsLine ("DEFUZZIFY " ++ name).toList ⟨c, none, described⟩
      ⟨c, some ⟨.defuzzify, name⟩, name :: described⟩ := by
  have htext : ("DEFUZZIFY " ++ name).toList =
      Block.defuzzify.keyword.toList ++ ' ' :: name.toList := by
    rw [String.toList_append]
    rfl
  rw [htext]
  exact readsLine_description (.inr ⟨rfl, Controller.isSome_output?.mpr hdeclared⟩) hname hnew

-- The block that describes an output, which has no terms before.
theorem reads_defuzzify [Scalar.PlainText α] (c : Controller α) {before : List (OutputVariable α)}
    (after : List (OutputVariable α)) {described : List String} {made : OutputVariable α}
    (h : o.Writable)
    (hname : made.name = o.name) (hmade : made.replaceTerms [] = made)
    (hbefore : o.name ∉ before.map (·.name)) (hnew : o.name ∉ described) :
    ∃ o' : OutputVariable α, o'.outline = o.reread.outline ∧ Reads (defuzzifyLines o)
      ⟨{ c with outputs := before ++ made :: after }, none, described⟩
      ⟨{ c with outputs := before ++ o' :: after }, none, o.name :: described⟩ := by
  rw [← hname] at hbefore
  have hopen : ReadsLine ("DEFUZZIFY " ++ o.name).toList
      ⟨{ c with outputs := before ++ made :: after }, none, described⟩
      ⟨{ c with outputs := before ++ made.replaceTerms [] :: after },
        some ⟨.defuzzify, made.name⟩, o.name :: described⟩ := by
    rw [hmade, hname]
    exact readsLine_defuzzify h.name hnew (by simp [hname])
  have hterms := reads_terms (fun terms =>
    ⟨{ c with outputs := before ++ made.replaceTerms terms :: after },
      some ⟨.defuzzify, made.name⟩, o.name :: described⟩) (fun t (ht : t ∈ o.terms) terms =>
        readsLine_outputTerm (o := made.replaceTerms terms) (h.terms t ht) hbefore) []
  -- a written output has terms, so its grid can be built at the end of the block
  have hfilled : (made.filled o).terms ≠ [] := by
    show o.terms.map Term.reread ≠ []
    simpa using h.nonempty
  obtain ⟨o', hgrid⟩ := OutputVariable.exists_discretize hfilled (by
    intro t ht
    obtain ⟨s, hs, rfl⟩ := List.mem_map.mp ht
    exact (h.terms s hs).reread_points)
  refine ⟨o', ?_, ?_⟩
  · rw [OutputVariable.outline_discretize hgrid, OutputVariable.outline_filled hname]
  · exact .append (.cons hopen hterms) (.cons (readsLine_method o.method hbefore)
      (.cons (readsLine_default h.defaultValue hbefore)
        (.single (readsLine_endDefuzzify (o := made.filled o) hfilled hgrid hbefore))))

-- The blocks that describe the outputs, which have no terms before.
theorem reads_outputs [Scalar.PlainText α] (c : Controller α) (before : List (OutputVariable α))
    {os mades : List (OutputVariable α)} {described : List String} (h : ∀ o ∈ os, o.Writable)
    (hmades : Forall₂ (fun o made => made.name = o.name ∧ made.replaceTerms [] = made) os mades)
    (hdistinct : (before.map (·.name) ++ os.map (·.name)).Nodup)
    (hnew : ∀ o ∈ os, o.name ∉ described) :
    ∃ os' : List (OutputVariable α),
      Forall₂ (fun o o' => o'.outline = o.reread.outline) os os' ∧
        Reads (os.flatMap defuzzifyLines)
          ⟨{ c with outputs := before ++ mades }, none, described⟩
          ⟨{ c with outputs := before ++ os' }, none,
            (os.map (·.name)).reverse ++ described⟩ := by
  -- on the outputs, each with the one that its declaration has made
  induction hmades generalizing before described with
  | nil => exact ⟨[], .nil, .nil _⟩
  | @cons o made os mades hmade _ ih =>
    obtain ⟨ho, hos⟩ := List.forall_mem_cons.mp h
    obtain ⟨honew, hosnew⟩ := List.forall_mem_cons.mp hnew
    rw [List.map_cons] at hdistinct
    obtain ⟨hhead, -⟩ := List.nodup_cons.mp (List.nodup_middle.mp hdistinct)
    rw [List.mem_append, not_or] at hhead
    obtain ⟨o', ho', hfirst⟩ := reads_defuzzify c mades ho hmade.1 hmade.2 hhead.1 honew
    have hname : o'.name = o.name := congrArg (fun p => p.1.1) ho'
    have hnames : ((before ++ [o']).map (·.name) ++ os.map (·.name)).Nodup := by
      rwa [List.map_append, List.append_assoc, List.map_singleton, hname]
    have hfresh := not_mem_described_cons hhead.2 hosnew
    obtain ⟨os', hos', hothers⟩ := ih (before ++ [o']) hos hnames hfresh
    rw [List.append_assoc, List.append_assoc, List.singleton_append, List.singleton_append]
      at hothers
    refine ⟨o' :: os', .cons ho' hos', ?_⟩
    rw [List.flatMap_cons, List.map_cons, List.reverse_cons, List.append_assoc,
      List.singleton_append]
    exact hfirst.append hothers

end Outputs

end Fcl

end FuzzyInference
