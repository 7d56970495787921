import FuzzyInference.Fcl.Reader
import FuzzyInference.Proofs.Outcomes

/-!
# What one line does

A line that is read does one of a few things to what has been read before it.  What reading keeps is
proved for each of them.
-/

namespace FuzzyInference

namespace Text

theorem mem_trimLeft {c : Char} (hc : isBlank c = false) (cs : List Char) :
    c ∈ trimLeft cs ↔ c ∈ cs := by
  induction cs with
  | nil => rfl
  | cons d cs ih =>
    unfold trimLeft at ih ⊢
    by_cases hd : isBlank d = true
    · have hne : c ≠ d := fun h => by simp [← h, hc] at hd
      rw [List.dropWhile_cons_of_pos hd, ih, List.mem_cons]
      exact (or_iff_right hne).symm
    · rw [List.dropWhile_cons_of_neg hd]

-- Trimming takes blank characters only.
theorem mem_trim {c : Char} (hc : isBlank c = false) (cs : List Char) : c ∈ trim cs ↔ c ∈ cs := by
  unfold trim trimRight
  rw [List.mem_reverse]
  show c ∈ trimLeft _ ↔ _
  rw [mem_trimLeft hc, List.mem_reverse, mem_trimLeft hc]

end Text

variable {α : Type} [Scalar α]

/-- The term runs through sorted points, and there is at least one. -/
def Term.Drawn (t : Term α) : Prop := ∃ points, points ≠ [] ∧ t.points = Point.sort points

namespace Fcl

variable {line : Line} {p p' q : Progress α} {notices : List Notice}

/-- What a line that is read does to what has been read before it. -/
inductive Progress.Step (p : Progress α) : Progress α → Prop
  /-- Nothing, or a setting of the whole. -/
  | set (name : String) (operators : Operators) :
    Step p (p.withController { p.controller with name, operators })
  | enter {block : Block} (hopen : p.block = none)
      (hblock : block ≠ .fuzzify ∧ block ≠ .defuzzify) : Step p (p.opened block "")
  | leave {block : Block} {name : String} (hopen : p.block = some ⟨block, name⟩)
      (hblock : block ≠ .defuzzify) : Step p p.closed
  | describeInput {name : String} (hopen : p.block = none) (hnew : name ∉ p.described)
      (hname : (p.controller.input? name).isSome = true) :
    Step p ⟨p.controller, some ⟨.fuzzify, name⟩, name :: p.described⟩
  | describeOutput {name : String} (hopen : p.block = none) (hnew : name ∉ p.described)
      (hname : (p.controller.output? name).isSome = true) :
    Step p ⟨p.controller, some ⟨.defuzzify, name⟩, name :: p.described⟩
  | declareInput {name : String} {c : Controller α}
      (hadd : p.controller.addInput ⟨name, []⟩ = .ok c) : Step p (p.withController c)
  | declareOutput {name : String} {o : OutputVariable α} {c : Controller α}
      (hname : ':' ∉ name.toList) (hcreate : declaredOutput p.controller.config name = .ok o)
      (hadd : p.controller.addOutput o = .ok c) : Step p (p.withController c)
  | inputTerm {name : String} {t : Term α} (hopen : p.block = some ⟨.fuzzify, name⟩)
      (hterm : t.Drawn) : Step p (p.withController (changeInput p.controller name (·.addTerm t)))
  | outputTerm {name : String} {t : Term α} (hopen : p.block = some ⟨.defuzzify, name⟩)
      (hterm : t.Drawn) : Step p (p.withController (changeOutput p.controller name (·.addTerm t)))
  | outputSetting {name : String} {f : OutputVariable α → OutputVariable α}
      (hopen : p.block = some ⟨.defuzzify, name⟩)
      (hkept : ∀ o, (f o).toVariable = o.toVariable ∧ (f o).resolution = o.resolution ∧
        (f o).grid = o.grid) :
    Step p (p.withController (changeOutput p.controller name f))
  | closeOutput {name : String} {o : OutputVariable α} (hopen : p.block = some ⟨.defuzzify, name⟩)
      (hfound : p.controller.output? name = some o) (hterms : o.terms ≠ [])
      (hbuilt : (Controller.onOutput name (.unknownVariable name) OutputVariable.buildGrid
        p.controller).answer = .ok ()) :
    Step p (p.withController (Controller.onOutput name (.unknownVariable name)
      OutputVariable.buildGrid p.controller).state).closed
  | rule (r : Rule α) (hadded : (Controller.addRule r p.controller).answer = .ok ()) :
    Step p (p.withController (Controller.addRule r p.controller).state)

open Progress (Step)

theorem Progress.Step.refl (p : Progress α) : p.Step p :=
  .set p.controller.name p.controller.operators

/-! ## Lines outside of the blocks -/

omit [Scalar α] in
theorem quiet_eq_ok {p p' : Progress α} : quiet p = .ok (p', notices) ↔ p = p' ∧ [] = notices := by
  unfold quiet
  rw [Except.ok.injEq, Prod.mk.injEq]

-- A step without notices.
theorem Progress.Step.of_quiet (h : quiet q = .ok (p', notices)) (hq : p.Step q) : p.Step p' := by
  obtain ⟨rfl, -⟩ := quiet_eq_ok.mp h
  exact hq

theorem openDescription_step {block : Block} (hopen : p.block = none)
    (hblock : block = .fuzzify ∨ block = .defuzzify)
    (h : openDescription line block p = .ok (p', notices)) : p.Step p' := by
  unfold openDescription at h
  dsimp only at h
  split at h
  · cases h
  · rename_i hnew
    have hnew : line.subject ∉ p.described := by simpa using hnew
    rcases hblock with rfl | rfl
    · dsimp only at h
      split at h
      · rename_i hname
        exact .of_quiet h (.describeInput hopen hnew hname)
      · cases h
    · dsimp only at h
      split at h
      · rename_i hname
        exact .of_quiet h (.describeOutput hopen hnew hname)
      · cases h

theorem readOutside_step (hopen : p.block = none) (h : readOutside line p = .ok (p', notices)) :
    p.Step p' := by
  unfold readOutside at h
  dsimp only at h
  split_ifs at h
  · exact .of_quiet h (.set line.subject p.controller.operators)
  · exact .of_quiet h (.refl p)
  · exact .of_quiet h (.enter hopen (by decide))
  · exact .of_quiet h (.enter hopen (by decide))
  · exact .of_quiet h (.enter hopen (by decide))
  · exact openDescription_step hopen (.inl rfl) h
  · exact openDescription_step hopen (.inr rfl) h

/-! ## Lines inside of a block -/

omit [Scalar α] in
theorem blame_eq_ok {β : Type} {result : Except Fault β} {b : β} :
    blame line result = .ok b ↔ result = .ok b := by
  unfold blame
  split <;> simp

theorem colon_not_mem_of_splitAt? {cs before after : List Char}
    (h : Text.splitAt? [':'] cs = some (before, after)) : ':' ∉ before := by
  induction cs generalizing before with
  | nil => simp [Text.splitAt?, Text.after?] at h
  | cons c cs ih =>
    rw [Text.splitAt?.eq_def] at h
    by_cases hc : ':' = c
    · subst hc
      simp only [Text.after?, if_true, Option.some.injEq, Prod.mk.injEq] at h
      rw [← h.1]
      exact List.not_mem_nil
    · simp only [Text.after?, if_neg hc] at h
      obtain ⟨⟨b, a⟩, hsplit, heq⟩ := Option.map_eq_some_iff.mp h
      obtain ⟨rfl, rfl⟩ := Prod.mk.inj heq
      exact fun hmem => (List.mem_cons.mp hmem).elim hc (ih hsplit)

theorem colon_not_mem_of_declaredName {statement : List Char} {name : String}
    (h : declaredName statement = .ok name) : ':' ∉ name.toList := by
  unfold declaredName at h
  split at h
  · cases h
  · rename_i before after hsplit
    dsimp only at h
    split at h
    · cases h
    · rw [← Except.ok.inj h, String.toList_ofList]
      rw [Text.mem_trim (by decide)]
      exact colon_not_mem_of_splitAt? hsplit

theorem judge_eq_ok {β : Type} {result : Except Problem β} {b : β} :
    line.judge result = .ok b ↔ result = .ok b := mapError_eq_ok

theorem readDeclaration_step {block : Block} {subject : String}
    (hopen : p.block = some ⟨block, subject⟩) (hblock : block = .inputs ∨ block = .outputs)
    (h : readDeclaration line block p = .ok (p', notices)) : p.Step p' := by
  unfold readDeclaration at h
  split at h
  · refine .of_quiet h (.leave hopen ?_)
    rcases hblock with rfl | rfl
    · decide
    · decide
  · obtain ⟨name, hname, h⟩ := bind_eq_ok.mp h
    obtain ⟨c, hadd, h⟩ := bind_eq_ok.mp h
    obtain ⟨statement, -, hname⟩ := bind_eq_ok.mp (judge_eq_ok.mp hname)
    rw [blame_eq_ok] at hadd
    refine .of_quiet h ?_
    rcases hblock with rfl | rfl
    · exact .declareInput hadd
    · obtain ⟨o, hcreate, hadd⟩ := bind_eq_ok.mp hadd
      exact .declareOutput (colon_not_mem_of_declaredName hname) hcreate hadd

theorem drawn_of_readTerm {statement : List Char} {t : Term α} (h : readTerm statement = .ok t) :
    t.Drawn := by
  unfold readTerm at h
  split at h
  · cases h
  · obtain ⟨points, -, h⟩ := bind_eq_ok.mp h
    dsimp only at h
    split at h
    · cases h
    · rename_i hpoints
      rw [← Except.ok.inj h]
      exact ⟨points, by simpa using hpoints, rfl⟩

theorem readFuzzify_step {name : String} (hopen : p.block = some ⟨.fuzzify, name⟩)
    (h : readFuzzify line name p = .ok (p', notices)) : p.Step p' := by
  unfold readFuzzify at h
  dsimp only at h
  split_ifs at h
  · exact .of_quiet h (.leave hopen (by decide))
  · obtain ⟨t, ht, h⟩ := bind_eq_ok.mp h
    obtain ⟨statement, -, ht⟩ := bind_eq_ok.mp (judge_eq_ok.mp ht)
    exact .of_quiet h (.inputTerm hopen (drawn_of_readTerm ht))

theorem closeDefuzzify_step {name : String} (hopen : p.block = some ⟨.defuzzify, name⟩)
    (h : closeDefuzzify line name p = .ok (p', notices)) : p.Step p' := by
  unfold closeDefuzzify at h
  dsimp only at h
  cases hfound : p.controller.output? name with
  | none =>
    rw [hfound] at h
    cases h
  | some o =>
    rw [hfound] at h
    simp only [Option.map_some, Option.getD_some] at h
    split at h
    · cases h
    · rename_i hterms
      obtain ⟨_, hbuilt, heq⟩ := map_eq_ok.mp h
      obtain ⟨rfl, -⟩ := Prod.mk.inj heq
      exact .closeOutput hopen hfound (by simpa using hterms) hbuilt

theorem readDefuzzify_step {name : String} (hopen : p.block = some ⟨.defuzzify, name⟩)
    (h : readDefuzzify line name p = .ok (p', notices)) : p.Step p' := by
  unfold readDefuzzify at h
  dsimp only at h
  split_ifs at h
  · exact closeDefuzzify_step hopen h
  · obtain ⟨t, ht, h⟩ := bind_eq_ok.mp h
    obtain ⟨statement, -, ht⟩ := bind_eq_ok.mp (judge_eq_ok.mp ht)
    exact .of_quiet h (.outputTerm hopen (drawn_of_readTerm ht))
  · obtain ⟨method, -, h⟩ := bind_eq_ok.mp h
    exact .of_quiet h (.outputSetting hopen fun _ => ⟨rfl, rfl, rfl⟩)
  · obtain ⟨defaultValue, -, h⟩ := bind_eq_ok.mp h
    exact .of_quiet h (.outputSetting hopen fun _ => ⟨rfl, rfl, rfl⟩)

theorem readRuleLine_step {name : String} (hopen : p.block = some ⟨.rules, name⟩)
    (h : readRuleLine line p = .ok (p', notices)) : p.Step p' := by
  have hset (operators : Operators) : p.Step (withOperators p operators) :=
    .set p.controller.name operators
  unfold readRuleLine at h
  dsimp only at h
  split_ifs at h
  · exact .of_quiet h (.leave hopen (by decide))
  · obtain ⟨norm, -, h⟩ := bind_eq_ok.mp h
    exact .of_quiet h (hset _)
  · obtain ⟨norm, -, h⟩ := bind_eq_ok.mp h
    exact .of_quiet h (hset _)
  · obtain ⟨activation, -, h⟩ := bind_eq_ok.mp h
    exact .of_quiet h (hset _)
  · obtain ⟨accumulation, -, h⟩ := bind_eq_ok.mp h
    exact .of_quiet h (hset _)
  · obtain ⟨rule, -, h⟩ := bind_eq_ok.mp h
    obtain ⟨_, hadded, heq⟩ := map_eq_ok.mp h
    obtain ⟨rfl, -⟩ := Prod.mk.inj heq
    exact .rule rule hadded

/-- Every line that is read takes one of the steps. -/
theorem readLine_step (h : readLine line p = .ok (p', notices)) : p.Step p' := by
  unfold readLine at h
  split at h
  · exact .of_quiet h (.refl p)
  · split at h
    · exact readOutside_step ‹_› h
    · exact readDeclaration_step ‹_› (.inl rfl) h
    · exact readDeclaration_step ‹_› (.inr rfl) h
    · exact readFuzzify_step ‹_› h
    · exact readDefuzzify_step ‹_› h
    · exact readRuleLine_step ‹_› h

/-- What every step keeps is kept by reading one line after the other, be it with success or not. -/
theorem Progress.moves_readEach {R : Progress α → Progress α → Prop} (hrefl : ∀ p, R p p)
    (htrans : ∀ p q s, R p q → R q s → R p s) (hstep : ∀ p q, p.Step q → R p q)
    (lines : List Line) :
    (Action.forEach lines fun line => Action.changeNoting (readLine line)).Moves R := by
  refine Action.moves_forEach hrefl htrans fun line _ => ?_
  exact Action.moves_changeNoting hrefl fun p q _ h => hstep p q (readLine_step h)

theorem Progress.moves_readLines {R : Progress α → Progress α → Prop} (hrefl : ∀ p, R p p)
    (htrans : ∀ p q s, R p q → R q s → R p s) (hstep : ∀ p q, p.Step q → R p q)
    (lines : List Line) : (readLines lines).Moves R :=
  Action.moves_bind htrans (moves_readEach hrefl htrans hstep lines)
    fun _ => Action.moves_ask hrefl _

end Fcl

end FuzzyInference
