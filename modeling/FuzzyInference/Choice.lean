import FuzzyInference.Fault

/-!
# Choices

Options with a fixed list of labelled choices. A setting is taken only if it is the label of one of
them, letter for letter.
-/

namespace FuzzyInference

/-- How the strength of a rule shapes the term that it concludes. -/
inductive Activation where
  | minimum
  | product
  deriving Repr, DecidableEq

/-- How the conclusions of several rules are combined. -/
inductive Accumulation where
  | maximum
  | boundedSum
  deriving Repr, DecidableEq

/-- How an accumulated set becomes one number: its centre of gravity, under either of two labels, or
the point that halves its area. -/
inductive Defuzzification where
  | gravity
  | singletons
  | area
  deriving Repr, DecidableEq

/-- What the workers of a batch are. -/
inductive WorkerKind where
  | threads
  | processes
  deriving Repr, DecidableEq

def Activation.label : Activation → String
  | .minimum => "MIN"
  | .product => "PROD"

def Accumulation.label : Accumulation → String
  | .maximum => "MAX"
  | .boundedSum => "BSUM"

def Defuzzification.label : Defuzzification → String
  | .gravity => "COG"
  | .singletons => "COGS"
  | .area => "COA"

def WorkerKind.label : WorkerKind → String
  | .threads => "threads"
  | .processes => "processes"

/-- An option: its name in messages, and its choices behind their labels. -/
structure Choice (β : Type) where
  name : String
  items : List (String × β)

namespace Choice

variable {α β : Type} [Scalar α]

/-- The option `name` with the given choices. -/
def ofLabelled (name : String) (label : β → String) (choices : List β) : Choice β :=
  ⟨name, choices.map fun b => (label b, b)⟩

def labels (c : Choice β) : List String := c.items.map Prod.fst

def find? (c : Choice β) (label : String) : Option β := c.items.lookup label

def refusal (c : Choice β) (value : Setting α) : Misconfiguration :=
  .notAChoice c.name value.shown c.labels

/-- The choice that a setting selects. -/
def select (c : Choice β) (value : Setting α) : Except Misconfiguration β :=
  match value with
  | .text label =>
    match c.find? label with
    | some b => .ok b
    | none => .error (c.refusal value)
  | _ => .error (c.refusal value)

/-- Whether a setting selects a choice. An option without choices takes every setting. -/
def check (c : Choice β) (value : Setting α) : Except Misconfiguration Unit :=
  if c.items.isEmpty then .ok () else (c.select value).map fun _ => ()

def activation : Choice Activation :=
  ofLabelled "activation_method" Activation.label [.minimum, .product]

def accumulation : Choice Accumulation :=
  ofLabelled "accumulation_method" Accumulation.label [.maximum, .boundedSum]

def defuzzification : Choice Defuzzification :=
  ofLabelled "defuzzification_method" Defuzzification.label [.gravity, .singletons, .area]

def workerKind : Choice WorkerKind :=
  ofLabelled "joblib_prefer" WorkerKind.label [.threads, .processes]

end Choice

end FuzzyInference
