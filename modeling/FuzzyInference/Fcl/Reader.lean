import FuzzyInference.Controller
import FuzzyInference.Fcl.ConditionReader
import FuzzyInference.Fcl.Statement

/-!
# Reading FCL

An FCL text is read line by line into a controller of its own, which is then joined to the
controller that it is meant for. A text that cannot be read leaves that controller as it was.
-/

namespace FuzzyInference.Fcl

variable {α : Type} [Scalar α]

/-- The block that is being read, with the name of the variable that it describes, if it describes
one. -/
structure OpenBlock where
  block : Block
  subject : String
  deriving Repr, DecidableEq

/-- What has been read so far: a controller, the block that is open, and the names of the variables
that a block has described. -/
structure Progress (α : Type) where
  controller : Controller α
  block : Option OpenBlock
  described : List String

namespace Progress

/-- Nothing read yet, for a controller with the given settings. -/
def start (config : Config α) (operators : Operators) : Progress α :=
  ⟨{ Controller.ofConfig config "" with operators }, none, []⟩

def opened (p : Progress α) (block : Block) (subject : String) : Progress α :=
  { p with block := some ⟨block, subject⟩ }

def closed (p : Progress α) : Progress α := { p with block := none }

def withController (p : Progress α) (controller : Controller α) : Progress α :=
  { p with controller }

end Progress

/-- What has been read, without a notice. -/
def quiet (p : Progress α) : Except Fault (Progress α × List Notice) := .ok (p, [])

/-- Opens the block that describes a variable. Each variable is described once. -/
def openDescription (line : Line) (block : Block) (p : Progress α) :
    Except Fault (Progress α × List Notice) :=
  let name := line.subject
  if p.described.contains name then .error (line.fault (.repeatedBlock block name))
  else
    let p := { p with described := name :: p.described }
    match block with
    | .fuzzify =>
      if (p.controller.input? name).isSome then quiet (p.opened block name)
      else .error (line.fault (.undeclaredInput name))
    | _ =>
      if (p.controller.output? name).isSome then quiet (p.opened block name)
      else .error (line.fault (.undeclaredOutput name))

def readOutside (line : Line) (p : Progress α) :
    Except Fault (Progress α × List Notice) :=
  let keyword := line.keyword
  if keyword = "FUNCTION_BLOCK" then
    quiet (p.withController { p.controller with name := line.subject })
  else if keyword = "END_FUNCTION_BLOCK" then quiet p
  else if keyword = Block.inputs.keyword then quiet (p.opened .inputs "")
  else if keyword = Block.outputs.keyword then quiet (p.opened .outputs "")
  else if keyword = Block.rules.keyword then quiet (p.opened .rules "")
  else if keyword = Block.fuzzify.keyword then openDescription line .fuzzify p
  else if keyword = Block.defuzzify.keyword then openDescription line .defuzzify p
  else
    let words := if keyword = "" then String.ofList line.content else keyword
    .error (line.fault (.unexpectedOutside words))

/-- The name that a declaration declares. -/
def declaredName (statement : List Char) : Except Problem String :=
  match Text.splitAt? [':'] statement with
  | none => .error .declarationShape
  | some (name, _) =>
    let name := Text.trim name
    if name = [] then .error .missingVariableName else .ok (String.ofList name)

/-- Faults of the configuration become problems of the line; other faults stay what they are. -/
def blame {β : Type} (line : Line) : Except Fault β → Except Fault β
  | .error (.misconfigured cause) => .error (line.fault (.misconfigured cause))
  | result => result

/-- The output variable that a declaration makes under a configuration. -/
def declaredOutput (config : Config α) (name : String) : Except Fault (OutputVariable α) :=
  OutputVariable.create name [] config.resolution (.text config.defuzzification.label)
    config.defaultValue

/-- Reads a line inside a block of declarations. -/
def readDeclaration (line : Line) (block : Block) (p : Progress α) :
    Except Fault (Progress α × List Notice) :=
  if line.keyword = "END_VAR" then quiet p.closed
  else do
    let name ← line.judge (line.statement >>= declaredName)
    let controller ← blame line <|
      match block with
      | .inputs => p.controller.addInput ⟨name, []⟩
      | _ => declaredOutput p.controller.config name >>= p.controller.addOutput
    quiet (p.withController controller)

/-- The controller with a change of its first input of a name. -/
def changeInput (c : Controller α) (name : String) (f : Variable α → Variable α) : Controller α :=
  (Controller.onInput name (.unknownVariable name) (Action.change fun v => .ok (f v)) c).state

/-- The controller with a change of its first output of a name. -/
def changeOutput (c : Controller α) (name : String) (f : OutputVariable α → OutputVariable α) :
    Controller α :=
  (Controller.onOutput name (.unknownVariable name) (Action.change fun o => .ok (f o)) c).state

/-- Reads a line inside the block that describes an input. -/
def readFuzzify (line : Line) (name : String) (p : Progress α) :
    Except Fault (Progress α × List Notice) :=
  let keyword := line.keyword
  if keyword = "END_FUZZIFY" then quiet p.closed
  else if keyword = "TERM" then do
    let term ← line.judge (line.statement >>= readTerm)
    quiet (p.withController (changeInput p.controller name (·.addTerm term)))
  else .error (line.fault (.unexpectedInside keyword .fuzzify))

/-- Closes the block that describes an output, whose grid is built then. -/
def closeDefuzzify (line : Line) (name : String) (p : Progress α) :
    Except Fault (Progress α × List Notice) :=
  let missing := ((p.controller.output? name).map (·.terms.isEmpty)).getD true
  if missing then .error (line.fault (.noTerms name))
  else
    let o := Controller.onOutput name (.unknownVariable name) OutputVariable.buildGrid p.controller
    o.answer.map fun _ => ((p.withController o.state).closed, [])

/-- Reads a line inside the block that describes an output. -/
def readDefuzzify (line : Line) (name : String) (p : Progress α) :
    Except Fault (Progress α × List Notice) :=
  let keyword := line.keyword
  if keyword = "END_DEFUZZIFY" then closeDefuzzify line name p
  else if keyword = "TERM" then do
    let term ← line.judge (line.statement >>= readTerm)
    quiet (p.withController (changeOutput p.controller name (·.addTerm term)))
  else if keyword = "METHOD" then do
    let method ← line.judge (line.statement >>= readSetting keyword .defuzzification)
    quiet (p.withController (changeOutput p.controller name ({ · with method })))
  else if keyword = "DEFAULT" then do
    let defaultValue ← line.judge (line.statement >>= readDefault)
    quiet (p.withController (changeOutput p.controller name ({ · with defaultValue })))
  else .error (line.fault (.unexpectedInside keyword .defuzzify))

/-- The conclusion of a rule: a term of an output variable and a weight. -/
def readConclusion (c : Controller α) (cs : List Char) : Except Problem (Conclusion α) :=
  match conclusionParts? cs with
  | none => .error .conclusionShape
  | some (name, term, weight) => do
    let name := String.ofList (Text.trim name)
    let term := String.ofList (Text.trim term)
    match c.output? name with
    | none => throw (.unknownOutput name)
    | some o =>
      match o.termIndex? term with
      | none => throw (.unknownOutputTerm name term)
      | some i =>
        let weight ← match weight with
          | none => pure 1
          | some text => readNumber .weight text
        return ⟨name, i, weight⟩

def readRule (c : Controller α) (statement : List Char) : Except Problem (Rule α) :=
  match ruleParts? statement with
  | none => .error .ruleShape
  | some (condition, conclusion) => do
    let condition ← readCondition c.inputs (Token.ofText condition)
    let conclusion ← readConclusion c conclusion
    return ⟨condition, conclusion, 0⟩

def withOperators (p : Progress α) (operators : Operators) : Progress α :=
  p.withController { p.controller with operators }

/-- Reads a line inside the block of the rules. -/
def readRuleLine (line : Line) (p : Progress α) :
    Except Fault (Progress α × List Notice) :=
  let keyword := line.keyword
  let operators := p.controller.operators
  if keyword = "END_RULEBLOCK" then quiet p.closed
  else if keyword = "AND" then do
    let norm ← line.judge (line.statement >>= readSetting keyword .andOperator)
    quiet (withOperators p { operators with norm })
  else if keyword = "OR" then do
    let norm ← line.judge (line.statement >>= readSetting keyword .orOperator)
    quiet (withOperators p { operators with norm })
  else if keyword = "ACT" then do
    let activation ← line.judge (line.statement >>= readSetting keyword .activation)
    quiet (withOperators p { operators with activation })
  else if keyword = "ACCU" then do
    let accumulation ← line.judge (line.statement >>= readSetting keyword .accumulation)
    quiet (withOperators p { operators with accumulation })
  else if keyword = "RULE" then do
    let rule ← line.judge (line.statement >>= readRule p.controller)
    let o := Controller.addRule rule p.controller
    o.answer.map fun _ => (p.withController o.state, o.notices)
  else .error (line.fault (.unexpectedInside keyword .rules))

/-- Reads a line. One without content says nothing. -/
def readLine (line : Line) (p : Progress α) :
    Except Fault (Progress α × List Notice) :=
  if line.content.isEmpty then quiet p
  else
    match p.block with
    | none => readOutside line p
    | some ⟨.inputs, _⟩ => readDeclaration line .inputs p
    | some ⟨.outputs, _⟩ => readDeclaration line .outputs p
    | some ⟨.fuzzify, name⟩ => readFuzzify line name p
    | some ⟨.defuzzify, name⟩ => readDefuzzify line name p
    | some ⟨.rules, _⟩ => readRuleLine line p

/-- The last line that says something. -/
def lastSpoken (lines : List Line) : Line :=
  ((lines.filter (!·.content.isEmpty)).getLast?).getD
    ⟨lines.length, "<eof>".toList, []⟩

/-- Refuses a text that ends inside a block. -/
def checkEnd (lines : List Line) (p : Progress α) : Except Fault Unit :=
  match p.block with
  | none => .ok ()
  | some opened => .error ((lastSpoken lines).fault (.unterminated opened.block))

def readLines (lines : List Line) : Action (Progress α) Unit := do
  Action.forEach lines fun line => Action.changeNoting (readLine line)
  Action.ask (checkEnd lines)

/-- Refuses the first variable of `c` whose name `base` has already. -/
def checkDisjoint (base c : Controller α) : Except Fault Unit :=
  (c.inputs.map (·.name) ++ c.outputs.map (·.name)).forM base.checkNew

/-- Joins a controller with disjoint names to another one, which takes over its operators, and its
name unless that is empty. -/
def join (c : Controller α) : Action (Controller α) Unit := do
  Action.forEach c.inputs fun v => Action.change (·.addInput v)
  Action.forEach c.outputs fun o => Action.change (·.addOutput o)
  Action.forEach c.rules Controller.addRule
  Action.change fun base =>
    .ok { base with
      operators := c.operators
      name := if c.name = "" then base.name else c.name }

end FuzzyInference.Fcl

namespace FuzzyInference.Controller

variable {α : Type} [Scalar α]

/-- Adds the variables, rules and settings of an FCL text. -/
def readFcl (text : List Char) : Action (Controller α) Unit := fun base =>
  -- the text is read into a controller of its own before `base` changes
  let read := Fcl.readLines (Fcl.linesOf text) (Fcl.Progress.start base.config base.operators)
  match read.answer with
  | .error f => ⟨base, read.notices, .error f⟩
  | .ok () =>
    let c := read.state.controller
    match Fcl.checkDisjoint base c with
    | .error f => ⟨base, read.notices, .error f⟩
    | .ok () =>
      let o := Fcl.join c base
      ⟨o.state, read.notices ++ o.notices, o.answer⟩

end FuzzyInference.Controller
