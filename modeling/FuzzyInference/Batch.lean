import FuzzyInference.Inference

/-!
# Batches

A controller evaluated for many rows of inputs. The rows are shared out among workers in contiguous
pieces, and every worker goes through its piece with a copy of the controller of its own.
-/

namespace FuzzyInference

/-- Cuts a list into `count` contiguous pieces. The first ones are longer by one item where the
length is no multiple of the count. -/
def pieces {β : Type} (items : List β) : (count : Nat) → List (List β)
  | 0 => []
  | count + 1 =>
    let size := (items.length + count) / (count + 1)
    items.take size :: pieces (items.drop size) count

/-- The pieces that have something in them. -/
def shares {β : Type} (items : List β) (count : Nat) : List (List β) :=
  (pieces items count).filter fun piece => !piece.isEmpty

/-- Runs one job for each piece of the work and gathers the results. This is all that is relied on
of the pool of threads or processes that runs the jobs: the results stand in the order of the
pieces, whatever job is done first, and a job that fails fails the whole. -/
def gather {σ β γ : Type} (work : List β) (job : β → Action σ γ) : Action σ (List γ) :=
  Action.collect work job

/-- Evaluates the rows one after the other with one controller. -/
def Controller.evaluateRows {α : Type} [Scalar α] (rows : List (List (String × α))) :
    Action (Controller α) (List (List (String × α))) :=
  Action.collect rows (evaluate .total)

/-- What a worker has before it: the controller that is given to all of them, and the copy that the
worker makes for itself. No worker looks at the copy of another, so one place serves them all. -/
structure Workplace (α : Type) where
  given : Controller α
  copy : Controller α

namespace Workplace

variable {α : Type}

def takeCopy : Action (Workplace α) Unit := fun w => ⟨{ w with copy := w.given }, [], .ok ()⟩

def onCopy {β : Type} (act : Action (Controller α) β) : Action (Workplace α) β :=
  Action.within Workplace.copy (fun copy w => { w with copy }) act

/-- What a worker does with its piece of the rows. Evaluating changes degrees and grids, so every
worker starts with a copy of the given controller. -/
def evaluatePiece [Scalar α] (rows : List (List (String × α))) :
    Action (Workplace α) (List (List (String × α))) := do
  takeCopy
  onCopy (Controller.evaluateRows rows)

end Workplace

namespace Controller

variable {α : Type} [Scalar α]

/-- The lengths of the columns, each once, in ascending order. -/
def lengths (columns : List (String × List α)) : List Nat :=
  ((columns.map fun column => column.2.length).mergeSort).eraseDups

/-- The row at a place of the columns. -/
def rowAt (columns : List (String × List α)) (i : Nat) : List (String × α) :=
  columns.filterMap fun (name, xs) => xs[i]?.map fun x => (name, x)

/-- Refuses the first column that belongs to no input. -/
def checkColumn (c : Controller α) (name : String) : Except Fault Unit :=
  match c.input? name with
  | some _ => .ok ()
  | none => .error (.misconfigured (.unknownInput name))

/-- What the workers make of the pieces of the rows. -/
def evaluatePieces (work : List (List (List (String × α)))) :
    Action (Controller α) (List (List (List (String × α)))) :=
  Action.within (fun c => ⟨c, c⟩) (fun w _ => w.given) (gather work Workplace.evaluatePiece)

/-- The columns of the crisp values of some rows, one for each output. -/
def columnsOf (c : Controller α) (crisps : List (List (String × α))) : List (String × List α) :=
  c.outputs.map fun o => (o.name, crisps.filterMap (·.lookup o.name))

/-- The crisp values of every output for the rows that the columns make. -/
def evaluateBatch (workerKind : Setting α) (workers : Nat) (columns : List (String × List α)) :
    Action (Controller α) (List (String × List α)) := do
  Action.ask fun _ => (Choice.workerKind.check workerKind).mapError .misconfigured
  Action.ask fun c => columns.forM fun column => c.checkColumn column.1
  let found := lengths columns
  if 1 < found.length then Action.fail (.misconfigured (.unequalLengths found))
  else
    let rows := (List.range (found.headD 0)).map (rowAt columns)
    let results ← evaluatePieces (shares rows workers)
    Action.ask fun c => .ok (c.columnsOf results.flatten)

/-- The crisp values of one output for a column of values of one input. -/
def controlCurve (workerKind : Setting α) (workers : Nat) (input output : String) (xs : List α) :
    Action (Controller α) (List α) := do
  let c ← Action.look
  if (c.output? output).isNone then Action.fail (.misconfigured (.unknownOutput output))
  else
    let results ← evaluateBatch workerKind workers [(input, xs)]
    return (results.lookup output).getD []

end Controller

/-- How many workers a number of jobs asks for; less than one stands for all cores but one. -/
def workerCount (cores : Nat) (jobs : Int) : Nat :=
  if jobs < 1 then max 1 (cores - 1) else jobs.toNat

end FuzzyInference
