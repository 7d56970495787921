import FuzzyInference.Controller

/-!
# Writing FCL

The FCL text of a controller. Names that would not read back as themselves are refused, so what is
written says the same when it is read.
-/

namespace FuzzyInference.Fcl

open Text (isBlank trim)

/-- The words that a name may not contain. -/
def reservedWords : List (List Char) :=
  ["IS", "NOT", "AND", "OR", "IF", "THEN", "WITH", "RULE", "TERM", "METHOD", "DEFAULT"].map
    String.toList

/-- Whether a name holds a mark of the language, two slashes, two blanks in a row, or a blank other
than the space. -/
def hasForbidden : List Char → Bool
  | [] => false
  | c :: rest =>
    let mark := c == '(' || c == ')' || c == ';' || c == ':'
    let pair := match rest with
      | [] => false
      | d :: _ => (c == '/' && d == '/') || (isBlank c && isBlank d)
    mark || pair || (isBlank c && c != ' ') || hasForbidden rest

/-- The words of a name between single spaces. -/
def spacedWords (cs : List Char) : List (List Char) :=
  match cs with
  | [] => [[]]
  | c :: rest =>
    if c = ' ' then [] :: spacedWords rest
    else
      match spacedWords rest with
      | word :: words => (c :: word) :: words
      | [] => [[c]]

/-- Whether a name holds a reserved word, or begins like the end of a block. -/
def hasReserved (cs : List Char) : Bool :=
  let words := spacedWords cs
  words.any reservedWords.contains || (Text.after? "END_".toList (words.headD [])).isSome

/-- Refuses a name that would not read back as itself. -/
def checkName (role : NameRole) (name : String) : Except Fault Unit :=
  let cs := name.toList
  if cs = [] then .error (.misconfigured (.emptyName role))
  else if cs ≠ trim cs ∨ hasForbidden cs = true then
    .error (.misconfigured (.unwritableName role name))
  else if hasReserved cs then .error (.misconfigured (.reservedName role name))
  else .ok ()

/-- Refuses the first name of a variable and its terms that would not read back. -/
def checkVariable {α : Type} (v : Variable α) : Except Fault Unit := do
  checkName .ofVariable v.name
  v.terms.forM fun t => checkName (.ofTerm v.name) t.name

/-- Refuses the first name of a controller that would not read back. Its own name may be empty. -/
def checkNames {α : Type} (c : Controller α) : Except Fault Unit := do
  if c.name ≠ "" then checkName .block c.name
  c.inputs.forM checkVariable
  c.outputs.forM fun o => checkVariable o.toVariable

variable {α : Type} [Scalar α]

/-- The text in brackets, if it has to be. -/
def bracketedIf (needed : Bool) (text : String) : String :=
  if needed then "(" ++ text ++ ")" else text

/-- The text of a condition. Brackets stand where reading would otherwise join the operands in
another way. -/
def conditionText (c : Controller α) : Condition → Except Fault String
  | .is comparison => do
    let v ← c.input comparison.name
    let t ← v.term comparison.term
    return comparison.name ++ (if comparison.negated then " IS NOT " else " IS ") ++ t.name
  | .and l r => do
    let left ← conditionText c l
    let right ← conditionText c r
    return bracketedIf (l matches .or _ _) left ++ " AND " ++
      bracketedIf (r matches .and _ _ | .or _ _) right
  | .or l r => do
    let left ← conditionText c l
    let right ← conditionText c r
    return left ++ " OR " ++ bracketedIf (r matches .or _ _) right

/-- The text of a conclusion. A weight of one is left out. -/
def conclusionText (c : Controller α) (conclusion : Conclusion α) : Except Fault String := do
  let o ← c.output conclusion.name
  let t ← o.term conclusion.term
  let weight := if conclusion.weight == 1 then "" else " WITH " ++ Scalar.text conclusion.weight
  return conclusion.name ++ " IS " ++ t.name ++ weight

def termLine (t : Term α) : String :=
  "\tTERM " ++ t.name ++ " := " ++ " ".intercalate (t.points.map Point.text) ++ ";"

def declarationLines (block : Block) (names : List String) : List String :=
  block.keyword :: names.map (fun name => "\t" ++ name ++ " :\tREAL;") ++ ["END_VAR"]

def fuzzifyLines (v : Variable α) : List String :=
  ("FUZZIFY " ++ v.name) :: v.terms.map termLine ++ ["END_FUZZIFY"]

def defuzzifyLines (o : OutputVariable α) : List String :=
  ("DEFUZZIFY " ++ o.name) :: o.terms.map termLine ++ [
    "\tMETHOD : " ++ o.method.label ++ ";",
    "\tDEFAULT := " ++ Scalar.text o.defaultValue ++ ";",
    "END_DEFUZZIFY"]

/-- The line of a rule with its number. -/
def ruleLine (c : Controller α) (number : Nat) (r : Rule α) : Except Fault String := do
  let condition ← conditionText c r.condition
  let conclusion ← conclusionText c r.conclusion
  return "\tRULE " ++ toString number ++ " : IF " ++ condition ++ " THEN " ++ conclusion ++ ";"

def ruleLines (c : Controller α) : Except Fault (List String) := do
  let rules ← c.rules.zipIdx.mapM fun (r, i) => ruleLine c (i + 1) r
  return [
    "RULEBLOCK",
    "\tAND : " ++ c.operators.norm.andLabel ++ ";",
    "\tACT : " ++ c.operators.activation.label ++ ";",
    "\tACCU : " ++ c.operators.accumulation.label ++ ";"] ++ rules ++ ["END_RULEBLOCK"]

def controllerLines (c : Controller α) : Except Fault (List String) := do
  checkNames c
  let rules ← ruleLines c
  return [if c.name = "" then "FUNCTION_BLOCK" else "FUNCTION_BLOCK " ++ c.name] ++
    declarationLines .inputs (c.inputs.map (·.name)) ++
    declarationLines .outputs (c.outputs.map (·.name)) ++
    c.inputs.flatMap fuzzifyLines ++ c.outputs.flatMap defuzzifyLines ++ rules ++
    ["END_FUNCTION_BLOCK"]

end FuzzyInference.Fcl

namespace FuzzyInference.Controller

/-- The FCL text of a controller. -/
def toFcl {α : Type} [Scalar α] (c : Controller α) : Except Fault String :=
  (Fcl.controllerLines c).map fun lines => String.join (lines.map (· ++ "\n"))

end FuzzyInference.Controller
