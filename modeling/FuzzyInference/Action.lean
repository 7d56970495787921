import FuzzyInference.Fault

/-!
# Actions

An action changes a state, gives notices on its way, and ends with an answer or a fault. A fault
does not undo what has been changed before it, so its outcome holds the state as well. The pieces
here build actions on lists and on parts of a state from actions on their items.
-/

namespace FuzzyInference

/-- Something that is reported while work goes on. -/
inductive Notice where
  /-- An output set without mass, whose default value, as text, is used. -/
  | noMass (output default : String)
  | duplicateRule (rule : String)
  | readingFile (path : String)
  | writingFile (path : String)
  deriving Repr, DecidableEq

/-- How much attention a notice asks for. -/
inductive NoticeLevel where
  | info
  | warning
  deriving Repr, DecidableEq

def NoticeLevel.text : NoticeLevel → String
  | .info => "INFO"
  | .warning => "WARNING"

namespace Notice

/-- The level of a notice: a warning when something was decided for the user. -/
def level : Notice → NoticeLevel
  | .noMass _ _ => .warning
  | .duplicateRule _ => .warning
  | .readingFile _ => .info
  | .writingFile _ => .info

def text : Notice → String
  | .noMass output default =>
    "No membership mass on " ++ Text.quoted output ++ ", using default value " ++ default
  | .duplicateRule rule => "Duplicate rule ignored: " ++ rule
  | .readingFile path => "Reading FCL file " ++ path
  | .writingFile path => "Writing FCL file " ++ path

end Notice

/-- What an action leaves behind. -/
structure Outcome (σ β : Type) where
  state : σ
  notices : List Notice
  answer : Except Fault β

/-- A change of a state `σ` with an answer `β`. -/
def Action (σ β : Type) : Type := σ → Outcome σ β

namespace Action

variable {σ τ ρ β γ : Type}

def give (b : β) : Action σ β := fun s => ⟨s, [], .ok b⟩

/-- Goes on with the answer of an action, unless it ended with a fault. -/
def andThen (act : Action σ β) (next : β → Action σ γ) : Action σ γ := fun s =>
  match act s with
  | ⟨s, notices, .error f⟩ => ⟨s, notices, .error f⟩
  | ⟨s, notices, .ok b⟩ =>
    let o := next b s
    ⟨o.state, notices ++ o.notices, o.answer⟩

instance : Monad (Action σ) where
  pure := give
  bind := andThen

def note (n : Notice) : Action σ Unit := fun s => ⟨s, [n], .ok ()⟩

def look : Action σ σ := fun s => ⟨s, [], .ok s⟩

def fail (f : Fault) : Action σ β := fun s => ⟨s, [], .error f⟩

/-- An answer computed from the state, which stays as it is. -/
def ask (f : σ → Except Fault β) : Action σ β := fun s => ⟨s, [], f s⟩

/-- A change that is made as a whole or not at all. -/
def change (f : σ → Except Fault σ) : Action σ Unit := fun s =>
  match f s with
  | .ok s' => ⟨s', [], .ok ()⟩
  | .error e => ⟨s, [], .error e⟩

/-- A change with notices that is made as a whole or not at all. -/
def changeNoting (f : σ → Except Fault (σ × List Notice)) : Action σ Unit := fun s =>
  match f s with
  | .ok (s', notices) => ⟨s', notices, .ok ()⟩
  | .error e => ⟨s, [], .error e⟩

/-- An action on a part of the state. -/
def within (get : σ → τ) (set : τ → σ → σ) (act : Action τ β) : Action σ β := fun s =>
  let o := act (get s)
  ⟨set o.state s, o.notices, o.answer⟩

/-- An action on every item of a list together with a state that all of them share. The first fault
leaves the items behind it as they are. -/
def sweep (act : Action (ρ × σ) Unit) : Action (List ρ × σ) Unit
  | ([], s) => ⟨([], s), [], .ok ()⟩
  | (item :: rest, s) =>
    match act (item, s) with
    | ⟨(item, s), notices, .error f⟩ => ⟨(item :: rest, s), notices, .error f⟩
    | ⟨(item, s), notices, .ok ()⟩ =>
      let o := sweep act (rest, s)
      ⟨(item :: o.state.1, o.state.2), notices ++ o.notices, o.answer⟩

/-- An action on every item of a list, up to the first fault. -/
def onEach (act : Action ρ Unit) : Action (List ρ) Unit
  | [] => ⟨[], [], .ok ()⟩
  | item :: rest =>
    match act item with
    | ⟨item, notices, .error f⟩ => ⟨item :: rest, notices, .error f⟩
    | ⟨item, notices, .ok ()⟩ =>
      let o := onEach act rest
      ⟨item :: o.state, notices ++ o.notices, o.answer⟩

/-- One action for every item of a list, in order, up to the first fault. -/
def forEach (items : List β) (act : β → Action σ Unit) : Action σ Unit :=
  match items with
  | [] => give ()
  | b :: rest => andThen (act b) fun _ => forEach rest act

/-- The answers of one action for every item of a list, in order, up to the first fault. -/
def collect (items : List β) (act : β → Action σ γ) : Action σ (List γ) :=
  match items with
  | [] => give []
  | b :: rest => andThen (act b) fun c => andThen (collect rest act) fun cs => give (c :: cs)

/-- An action on the first item that has a property; without one the fault is `missing`. -/
def onFirst (found : ρ → Bool) (missing : Fault) (act : Action ρ β) : Action (List ρ) β
  | [] => ⟨[], [], .error missing⟩
  | item :: rest =>
    if found item then
      let o := act item
      ⟨o.state :: rest, o.notices, o.answer⟩
    else
      let o := onFirst found missing act rest
      ⟨item :: o.state, o.notices, o.answer⟩

end Action

end FuzzyInference
