import FuzzyInference.Condition
import FuzzyInference.Fcl.Token

/-!
# Reading conditions

A condition is a disjunction of conjunctions of factors, and a factor is a condition in brackets or
a comparison `variable IS [NOT] term`. Names are runs of words; the words of a comparison are joined
by single spaces and looked up among the input variables. Every function answers with the tokens
that it leaves, which are fewer than it was given.
-/

namespace FuzzyInference.Fcl

variable {α : Type}

/-- A condition, and fewer than `n` tokens behind it. -/
abbrev Parsed (n : Nat) : Type := { p : Condition × List Token // p.2.length < n }

/-- A word that ends every name. -/
def isJoint (text : String) : Bool := text == "AND" || text == "OR"

/-- The words of a variable name at the front, and the tokens behind them. -/
def variableWords : List Token → List String × List Token
  | .word text :: rest =>
    if isJoint text || text == "IS" then ([], .word text :: rest)
    else
      let found := variableWords rest
      (text :: found.1, found.2)
  | tokens => ([], tokens)

/-- The words of a term name at the front, and the tokens behind them. -/
def termWords : List Token → List String × List Token
  | .word text :: rest =>
    if isJoint text then ([], .word text :: rest)
    else
      let found := termWords rest
      (text :: found.1, found.2)
  | tokens => ([], tokens)

/-- A negation at the front, and the tokens behind it. -/
def negation : List Token → Bool × List Token
  | .word "NOT" :: rest => (true, rest)
  | tokens => (false, tokens)

theorem length_variableWords_le (tokens : List Token) :
    (variableWords tokens).2.length ≤ tokens.length := by
  fun_induction variableWords tokens with
  | case1 => exact Nat.le_refl _
  | case2 text rest h found ih => exact Nat.le_succ_of_le ih
  | case3 => exact Nat.le_refl _

theorem length_termWords_le (tokens : List Token) :
    (termWords tokens).2.length ≤ tokens.length := by
  fun_induction termWords tokens with
  | case1 => exact Nat.le_refl _
  | case2 text rest h found ih => exact Nat.le_succ_of_le ih
  | case3 => exact Nat.le_refl _

theorem length_negation_le (tokens : List Token) : (negation tokens).2.length ≤ tokens.length := by
  unfold negation
  split <;> simp

def joined (words : List String) : String := " ".intercalate words

/-- The comparison of an input variable with the first of its terms of a name. -/
def resolve (inputs : List (Variable α)) (name term : String) (negated : Bool) :
    Except Problem Comparison :=
  match inputs.find? (·.name == name) with
  | none => .error (.unknownInput name)
  | some v =>
    match v.termIndex? term with
    | none => .error (.unknownInputTerm name term)
    | some i => .ok ⟨name, i, negated⟩

def readComparison (inputs : List (Variable α)) (tokens : List Token) :
    Except Problem (Parsed tokens.length) :=
  let left := variableWords tokens
  match hv : left.2 with
  | .word "IS" :: tail =>
    if left.1.isEmpty then .error .conditionShape
    else
      let sign := negation tail
      let right := termWords sign.2
      if right.1.isEmpty then .error .missingTermName
      else
        (resolve inputs (joined left.1) (joined right.1) sign.1).map fun c =>
          ⟨(.is c, right.2), by
            have h₁ := length_variableWords_le tokens
            have h₂ := length_negation_le tail
            have h₃ := length_termWords_le sign.2
            simp only [left] at hv
            rw [hv] at h₁
            simp only [List.length_cons] at h₁
            exact Nat.lt_of_lt_of_le (Nat.lt_succ_of_le (Nat.le_trans h₃ h₂)) h₁⟩
  | _ => .error .conditionShape

mutual

/-- Reads a condition in brackets or a comparison. -/
def readFactor (inputs : List (Variable α)) (tokens : List Token) :
    Except Problem (Parsed tokens.length) :=
  match tokens with
  | .opening :: rest =>
    match readDisjunction inputs rest with
    | .error problem => .error problem
    | .ok ⟨(c, .closing :: tail), h⟩ =>
      .ok ⟨(c, tail), by simp only [List.length_cons] at h ⊢; omega⟩
    | .ok _ => .error .unbalancedCondition
  | tokens => readComparison inputs tokens
termination_by (tokens.length, 0)

/-- Reads a factor and what is joined to it by conjunction. -/
def readConjunction (inputs : List (Variable α)) (tokens : List Token) :
    Except Problem (Parsed tokens.length) :=
  match readFactor inputs tokens with
  | .error problem => .error problem
  | .ok ⟨(c, rest), h⟩ =>
    match readMoreFactors inputs c rest with
    | .error problem => .error problem
    | .ok ⟨p, h'⟩ => .ok ⟨p, Nat.lt_of_lt_of_le h' h⟩
termination_by (tokens.length, 1)

/-- Reads further factors behind the conjunction `left`. -/
def readMoreFactors (inputs : List (Variable α)) (left : Condition) (tokens : List Token) :
    Except Problem (Parsed (tokens.length + 1)) :=
  match tokens with
  | .word "AND" :: rest =>
    match readFactor inputs rest with
    | .error problem => .error problem
    | .ok ⟨(right, tail), h⟩ =>
      have : tail.length < rest.length := h
      match readMoreFactors inputs (.and left right) tail with
      | .error problem => .error problem
      | .ok ⟨p, h'⟩ => .ok ⟨p, by simp only [List.length_cons] at h h' ⊢; omega⟩
  | tokens => .ok ⟨(left, tokens), Nat.lt_succ_self _⟩
termination_by (tokens.length, 1)

/-- Reads a conjunction and what is joined to it by disjunction. -/
def readDisjunction (inputs : List (Variable α)) (tokens : List Token) :
    Except Problem (Parsed tokens.length) :=
  match readConjunction inputs tokens with
  | .error problem => .error problem
  | .ok ⟨(c, rest), h⟩ =>
    match readMoreConjunctions inputs c rest with
    | .error problem => .error problem
    | .ok ⟨p, h'⟩ => .ok ⟨p, Nat.lt_of_lt_of_le h' h⟩
termination_by (tokens.length, 2)

/-- Reads further conjunctions behind the disjunction `left`. -/
def readMoreConjunctions (inputs : List (Variable α)) (left : Condition) (tokens : List Token) :
    Except Problem (Parsed (tokens.length + 1)) :=
  match tokens with
  | .word "OR" :: rest =>
    match readConjunction inputs rest with
    | .error problem => .error problem
    | .ok ⟨(right, tail), h⟩ =>
      have : tail.length < rest.length := h
      match readMoreConjunctions inputs (.or left right) tail with
      | .error problem => .error problem
      | .ok ⟨p, h'⟩ => .ok ⟨p, by simp only [List.length_cons] at h h' ⊢; omega⟩
  | tokens => .ok ⟨(left, tokens), Nat.lt_succ_self _⟩
termination_by (tokens.length, 2)

end

/-- Reads all tokens as one condition. -/
def readCondition (inputs : List (Variable α)) (tokens : List Token) : Except Problem Condition :=
  if tokens.isEmpty then .error .emptyCondition
  else
    match readDisjunction inputs tokens with
    | .error problem => .error problem
    | .ok ⟨(c, []), _⟩ => .ok c
    | .ok ⟨(_, token :: _), _⟩ => .error (.unexpectedToken token.text)

end FuzzyInference.Fcl
