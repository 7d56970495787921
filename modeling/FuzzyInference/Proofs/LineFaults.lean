import FuzzyInference.Proofs.ReadSoFar
import FuzzyInference.Proofs.WrittenController

/-!
# What goes wrong in a line

Whatever a line says, and whatever has been read before it, a fault of reading it is a problem of
that very line: no other fault gets out, and the problem is not that the text ends too early.
-/

namespace FuzzyInference.Fcl

variable {α β γ : Type}

/-- What goes wrong, if anything, is something other than a text that ends inside a block. -/
def OfLine (result : Except Problem β) : Prop := ∀ block, result ≠ .error (.unterminated block)

theorem OfLine.ok (b : β) : OfLine (.ok b) := nofun

theorem OfLine.error {problem : Problem} (h : ∀ block, problem ≠ .unterminated block) :
    OfLine (.error problem : Except Problem β) := fun block heq => h block (Except.error.inj heq)

theorem OfLine.bind {x : Except Problem β} {f : β → Except Problem γ} (hx : OfLine x)
    (hf : ∀ b, x = .ok b → OfLine (f b)) : OfLine (x >>= f) := by
  intro block h
  rcases bind_eq_error.mp h with h | ⟨b, hb, h⟩
  · exact hx block h
  · exact hf b hb block h

theorem OfLine.mapM {f : β → Except Problem γ} {items : List β} (hf : ∀ b, OfLine (f b)) :
    OfLine (items.mapM f) := by
  induction items with
  | nil => exact .ok _
  | cons b rest ih =>
    rw [List.mapM_cons]
    exact (hf b).bind fun _ _ => ih.bind fun _ _ => .ok _

theorem ofLine_map {x : Except Problem β} {f : β → γ} : OfLine (x.map f) ↔ OfLine x := by
  cases x <;> simp [OfLine, Except.map]

/-! ## Problems of a condition -/

variable {inputs : List (Variable α)}

theorem ofLine_resolve (name term : String) (negated : Bool) :
    OfLine (resolve inputs name term negated) := by
  unfold resolve
  split
  · exact .error (by simp)
  · split
    · exact .error (by simp)
    · exact .ok _

theorem ofLine_readComparison (tokens : List Token) : OfLine (readComparison inputs tokens) := by
  unfold readComparison
  dsimp only
  split
  · split
    · nofun
    · split
      · nofun
      · exact ofLine_map.mpr (ofLine_resolve _ _ _)
  · nofun

mutual

theorem ofLine_readFactor (tokens : List Token) : OfLine (outcome (readFactor inputs tokens)) := by
  match tokens with
  | .opening :: inner =>
    have hinner := ofLine_readDisjunction inner
    rw [outcome_readFactor_opening]
    split
    · rename_i problem h
      rwa [h] at hinner
    · exact .ok _
    · nofun
  | [] | .closing :: _ | .word _ :: _ =>
    rw [readFactor_of_ne_opening (by simp)]
    exact ofLine_map.mpr (ofLine_readComparison _)
termination_by (tokens.length, 0)

theorem ofLine_readConjunction (tokens : List Token) :
    OfLine (outcome (readConjunction inputs tokens)) := by
  rw [outcome_readConjunction]
  refine (ofLine_readFactor tokens).bind fun p hp => ?_
  -- what is left is shorter, which the recursion rests on
  have hlt := length_lt_of_outcome hp
  exact ofLine_readMoreFactors p.1 p.2
termination_by (tokens.length, 1)

theorem ofLine_readMoreFactors (left : Condition) (tokens : List Token) :
    OfLine (outcome (readMoreFactors inputs left tokens)) := by
  by_cases hand : tokens.head? = some (.word "AND")
  · obtain ⟨inner, hinner⟩ := List.head?_eq_some_iff.mp hand
    have hlt : inner.length < tokens.length := hinner ▸ Nat.lt_succ_self _
    rw [hinner, outcome_readMoreFactors_and]
    refine (ofLine_readFactor inner).bind fun p hp => ?_
    have hlt := (length_lt_of_outcome hp).trans hlt
    exact ofLine_readMoreFactors (.and left p.1) p.2
  · rw [outcome_readMoreFactors_of_ne_and hand]
    exact .ok _
termination_by (tokens.length, 1)

theorem ofLine_readDisjunction (tokens : List Token) :
    OfLine (outcome (readDisjunction inputs tokens)) := by
  rw [outcome_readDisjunction]
  refine (ofLine_readConjunction tokens).bind fun p hp => ?_
  have hlt := length_lt_of_outcome hp
  exact ofLine_readMoreConjunctions p.1 p.2
termination_by (tokens.length, 2)

theorem ofLine_readMoreConjunctions (left : Condition) (tokens : List Token) :
    OfLine (outcome (readMoreConjunctions inputs left tokens)) := by
  by_cases hor : tokens.head? = some (.word "OR")
  · obtain ⟨inner, hinner⟩ := List.head?_eq_some_iff.mp hor
    have hlt : inner.length < tokens.length := hinner ▸ Nat.lt_succ_self _
    rw [hinner, outcome_readMoreConjunctions_or]
    refine (ofLine_readConjunction inner).bind fun p hp => ?_
    have hlt := (length_lt_of_outcome hp).trans hlt
    exact ofLine_readMoreConjunctions (.or left p.1) p.2
  · rw [outcome_readMoreConjunctions_of_ne_or hor]
    exact .ok _
termination_by (tokens.length, 2)

end

theorem ofLine_readCondition (tokens : List Token) : OfLine (readCondition inputs tokens) := by
  have hread : OfLine (readDisjunction inputs tokens) :=
    ofLine_map.mp (ofLine_readDisjunction tokens)
  unfold readCondition
  split
  · nofun
  · split
    · rename_i problem h
      rw [h] at hread
      exact fun block heq => hread block (congrArg _ (Except.error.inj heq))
    · exact .ok _
    · nofun


/-! ## Problems of a statement -/

theorem ofLine_statement (line : Line) : OfLine line.statement := by
  unfold Line.statement
  split
  · exact .ok _
  · nofun

theorem ofLine_readSetting (keyword : String) (choice : Choice β) (statement : List Char) :
    OfLine (readSetting keyword choice statement) := by
  unfold readSetting
  split
  · nofun
  · split
    · exact .ok _
    · nofun

theorem ofLine_declaredName (statement : List Char) : OfLine (declaredName statement) := by
  unfold declaredName
  split
  · nofun
  · dsimp only
    split
    · nofun
    · exact .ok _

/-! ## Faults of a line -/

/-- What goes wrong, if anything, is a problem of the line. -/
def Line.Blamed (line : Line) (result : Except Fault β) : Prop :=
  ∀ f, result = .error f →
    ∃ problem, (∀ block, problem ≠ .unterminated block) ∧ f = line.fault problem

variable {line : Line} {p : Progress α}

theorem Line.blamed_ok (line : Line) (b : β) : line.Blamed (.ok b) := nofun

theorem Line.blamed_fault (line : Line) {problem : Problem}
    (h : ∀ block, problem ≠ .unterminated block) :
    line.Blamed (.error (line.fault problem) : Except Fault β) := by
  rintro _ ⟨⟩
  exact ⟨problem, h, rfl⟩

theorem Line.Blamed.bind {x : Except Fault β} {f : β → Except Fault γ} (hx : line.Blamed x)
    (hf : ∀ b, x = .ok b → line.Blamed (f b)) : line.Blamed (x >>= f) := by
  intro fault h
  rcases bind_eq_error.mp h with h | ⟨b, hb, h⟩
  · exact hx fault h
  · exact hf b hb fault h

theorem Line.blamed_judge {result : Except Problem β} (h : OfLine result) :
    line.Blamed (line.judge result) := by
  unfold Line.judge
  cases result with
  | ok b => exact line.blamed_ok b
  | error problem =>
    exact line.blamed_fault fun block heq => h block (by rw [heq])

-- Faults of the configuration become problems of the line.
theorem blamed_blame {result : Except Fault β}
    (h : ∀ f, result = .error f → ∃ cause, f = .misconfigured cause) :
    line.Blamed (blame line result) := by
  cases result with
  | ok b => exact line.blamed_ok b
  | error f =>
    obtain ⟨cause, rfl⟩ := h f rfl
    exact line.blamed_fault nofun

theorem blamed_quiet (p : Progress α) : line.Blamed (quiet p) := line.blamed_ok _

theorem blamed_openDescription (line : Line) (block : Block) (p : Progress α) :
    line.Blamed (openDescription line block p) := by
  unfold openDescription
  dsimp only
  split
  · exact line.blamed_fault nofun
  · split
    all_goals
      split
      · exact blamed_quiet _
      · exact line.blamed_fault nofun

theorem blamed_readOutside (line : Line) (p : Progress α) : line.Blamed (readOutside line p) := by
  unfold readOutside
  dsimp only
  split_ifs
  any_goals exact blamed_quiet _
  any_goals exact blamed_openDescription _ _ _
  all_goals exact line.blamed_fault nofun

theorem exists_of_addInput_eq_error {c : Controller α} {v : Variable α} {f : Fault}
    (h : c.addInput v = .error f) : ∃ cause, f = .misconfigured cause := by
  unfold Controller.addInput Controller.checkNew at h
  split at h
  · cases h
    exact ⟨_, rfl⟩
  · cases h

theorem exists_of_addOutput_eq_error {c : Controller α} {o : OutputVariable α} {f : Fault}
    (h : c.addOutput o = .error f) : ∃ cause, f = .misconfigured cause := by
  unfold Controller.addOutput Controller.checkNew at h
  split at h
  · cases h
    exact ⟨_, rfl⟩
  · cases h

/-! ## Numbers, terms and rules -/

variable [Scalar α]

theorem ofLine_readNumber (role : NumberRole) (cs : List Char) :
    OfLine (readNumber role cs : Except Problem α) := by
  unfold readNumber
  split
  · exact .ok _
  · nofun

theorem ofLine_readPoint (inside : List Char) :
    OfLine (readPoint inside : Except Problem (Point α)) := by
  unfold readPoint
  split
  · split
    · nofun
    · exact (ofLine_readNumber _ _).bind fun _ _ => (ofLine_readNumber _ _).bind fun _ _ => .ok _
  · nofun

theorem ofLine_readPoints (cs : List Char) :
    OfLine (readPoints cs : Except Problem (List (Point α))) := by
  unfold readPoints
  dsimp only
  split
  · show OfLine (.error .unbalancedPoints)
    nofun
  · split
    · show OfLine (.error .strayPoints)
      nofun
    · exact .mapM ofLine_readPoint

theorem ofLine_readTerm (statement : List Char) :
    OfLine (readTerm statement : Except Problem (Term α)) := by
  unfold readTerm
  split
  · nofun
  · refine (ofLine_readPoints _).bind fun points _ => ?_
    dsimp only
    split
    · nofun
    · exact .ok _

theorem ofLine_readDefault (statement : List Char) :
    OfLine (readDefault statement : Except Problem α) := by
  unfold readDefault
  split
  · nofun
  · dsimp only
    split
    · nofun
    · exact ofLine_readNumber _ _

theorem ofLine_readConclusion (c : Controller α) (cs : List Char) :
    OfLine (readConclusion c cs) := by
  unfold readConclusion
  split
  · exact .error (by simp)
  · dsimp only
    split
    · exact .error (by simp)
    · split
      · exact .error (by simp)
      · split
        · exact .ok _
        · exact (ofLine_readNumber _ _).bind fun _ _ => .ok _

theorem ofLine_readRule (c : Controller α) (statement : List Char) :
    OfLine (readRule c statement) := by
  unfold readRule
  split
  · nofun
  · exact (ofLine_readCondition _).bind fun _ _ => (ofLine_readConclusion c _).bind fun _ _ => .ok _

/-! ## Lines inside of a block -/

theorem blamed_readDeclaration (hconfig : p.controller.config.Sound) (block : Block) :
    line.Blamed (readDeclaration line block p) := by
  unfold readDeclaration
  split
  · exact blamed_quiet _
  · have hname := (ofLine_statement line).bind fun cs _ => ofLine_declaredName cs
    refine (Line.blamed_judge hname).bind fun name _ =>
      (blamed_blame fun f h => ?_).bind fun c _ => blamed_quiet _
    split at h
    · exact exists_of_addInput_eq_error h
    · obtain ⟨made, hmade, -⟩ := exists_declaredOutput hconfig name
      rw [hmade] at h
      exact exists_of_addOutput_eq_error h

theorem blamed_readFuzzify (line : Line) (name : String) (p : Progress α) :
    line.Blamed (readFuzzify line name p) := by
  unfold readFuzzify
  dsimp only
  split_ifs
  · exact blamed_quiet _
  · exact (Line.blamed_judge ((ofLine_statement line).bind fun cs _ => ofLine_readTerm cs)).bind
      fun _ _ => blamed_quiet _
  · exact line.blamed_fault nofun

-- The grid of an output with terms that are drawn can be built.
theorem blamed_closeDefuzzify (hdrawn : p.controller.Drawn) (name : String) :
    line.Blamed (closeDefuzzify line name p) := by
  unfold closeDefuzzify
  dsimp only
  cases hfound : p.controller.output? name with
  | none => exact line.blamed_fault nofun
  | some o =>
    simp only [Option.map_some, Option.getD_some]
    split
    · exact line.blamed_fault nofun
    · rename_i hterms
      have hpoints : ∀ t ∈ o.terms, t.points ≠ [] := fun t ht =>
        (hdrawn.outputs o (List.mem_of_find?_eq_some hfound) t ht).points_ne_nil
      obtain ⟨o', ho'⟩ := OutputVariable.exists_discretize
        (fun hnil => hterms (List.isEmpty_iff.mpr hnil)) hpoints
      obtain ⟨rfl, before, after, hc, hbefore⟩ := Controller.split_of_output? hfound
      rw [Controller.onOutput_append hc hbefore, OutputVariable.buildGrid_eq,
        Action.change_of_ok ho']
      exact line.blamed_ok _

theorem blamed_readDefuzzify (hdrawn : p.controller.Drawn) (name : String) :
    line.Blamed (readDefuzzify line name p) := by
  have hjudge {γ : Type} {read : List Char → Except Problem γ} (hread : ∀ cs, OfLine (read cs)) :
      line.Blamed (line.judge (line.statement >>= read)) :=
    Line.blamed_judge ((ofLine_statement line).bind fun cs _ => hread cs)
  unfold readDefuzzify
  dsimp only
  split_ifs
  · exact blamed_closeDefuzzify hdrawn name
  · exact (hjudge ofLine_readTerm).bind fun _ _ => blamed_quiet _
  · exact (hjudge (ofLine_readSetting _ _)).bind fun _ _ => blamed_quiet _
  · exact (hjudge ofLine_readDefault).bind fun _ _ => blamed_quiet _
  · exact line.blamed_fault nofun

theorem blamed_readRuleLine (line : Line) (p : Progress α) : line.Blamed (readRuleLine line p) := by
  have hsetting {γ : Type} (keyword : String) (choice : Choice γ) :
      line.Blamed (line.judge (line.statement >>= readSetting keyword choice)) :=
    Line.blamed_judge <| (ofLine_statement line).bind fun cs _ =>
      ofLine_readSetting keyword choice cs
  unfold readRuleLine
  dsimp only
  split_ifs
  · exact blamed_quiet _
  · exact (hsetting _ _).bind fun _ _ => blamed_quiet _
  · exact (hsetting _ _).bind fun _ _ => blamed_quiet _
  · exact (hsetting _ _).bind fun _ _ => blamed_quiet _
  · exact (hsetting _ _).bind fun _ _ => blamed_quiet _
  · refine (Line.blamed_judge ((ofLine_statement line).bind fun cs _ => ofLine_readRule _ cs)).bind
      fun r hr => ?_
    -- a rule that is read refers to what is there, so it can be added
    obtain ⟨statement, -, hr⟩ := bind_eq_ok.mp (judge_eq_ok.mp hr)
    obtain ⟨notices, hadded⟩ := addRule_of_valid (readRule_valid hr)
    rw [hadded]
    exact line.blamed_ok _
  · exact line.blamed_fault nofun

/-- A line that cannot be read has a problem, and that is the fault. -/
theorem blamed_readLine {config : Config α} (hconfig : config.Sound) (hp : p.Kept config)
    (line : Line) : line.Blamed (readLine line p) := by
  have hsound : p.controller.config.Sound := hp.config ▸ hconfig
  unfold readLine
  split
  · exact blamed_quiet _
  · split
    · exact blamed_readOutside line p
    · exact blamed_readDeclaration hsound .inputs
    · exact blamed_readDeclaration hsound .outputs
    · exact blamed_readFuzzify line _ p
    · exact blamed_readDefuzzify hp.drawn _
    · exact blamed_readRuleLine line p

end FuzzyInference.Fcl
