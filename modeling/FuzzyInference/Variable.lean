import FuzzyInference.Term

/-!
# Linguistic variables

A variable is a name with a list of terms. The place of a term in the list is its index, which
conditions and conclusions refer to. A variable owns its terms: what is done to them is seen by no
other variable. Variables that hold terms in common are in `FuzzyInference.Sharing`.
-/

namespace FuzzyInference

/-- A named list of terms. -/
structure Variable (α : Type) where
  name : String
  terms : List (Term α)
  deriving Repr, DecidableEq

namespace Variable

variable {α : Type} [Scalar α]

def termNames (v : Variable α) : List String := v.terms.map Term.name

/-- The variable as text behind the word for its kind. -/
def describe (kind : String) (v : Variable α) : String :=
  kind ++ ":" ++ v.name ++ ": " ++ Text.quotedList v.termNames

def text (v : Variable α) : String := v.describe "Variable"

/-- The index of the first term with a name. -/
def termIndex? (v : Variable α) (name : String) : Option Nat :=
  v.terms.findIdx? (·.name == name)

/-- The term with an index. -/
def term (v : Variable α) (index : Int) : Except Fault (Term α) :=
  let refused := Fault.misconfigured (.termIndex index v.name v.terms.length)
  if 0 ≤ index then
    match v.terms[index.toNat]? with
    | some t => .ok t
    | none => .error refused
  else .error refused

/-- An action on the term with an index. -/
def onTerm {β : Type} (index : Int) (act : Action (Term α) β) : Action (Variable α) β := fun v =>
  match v.term index with
  | .error f => ⟨v, [], .error f⟩
  | .ok t =>
    let o := act t
    ⟨{ v with terms := v.terms.set index.toNat o.state }, o.notices, o.answer⟩

/-- The variable with a further term, which takes the next index. -/
def addTerm (v : Variable α) (t : Term α) : Variable α := { v with terms := v.terms ++ [t] }

def replaceTerms (v : Variable α) (terms : List (Term α)) : Variable α := { v with terms }

/-- Takes the degree of `x` in every term, up to the first one that refuses it. -/
def fuzzify (division : Division) (x : α) : Action (Variable α) Unit :=
  Action.within Variable.terms (fun terms v => { v with terms })
    (Action.onEach (Action.change (Term.fuzzify · division x)))

/-- The first term with a name; `owner` describes the variable if there is none. -/
def named (v : Variable α) (owner name : String) : Except Fault (Term α) :=
  match v.terms.find? (·.name == name) with
  | some t => .ok t
  | none => .error (.unknownTerm name owner)

end Variable

end FuzzyInference
