import FuzzyInference.NormPair

/-!
# Configurations

The settings that a controller starts with. The choices are checked when a configuration is made;
the resolution and the default value are kept as they were given, and are turned into numbers where
an output variable is declared.
-/

namespace FuzzyInference

/-- The inference settings of a controller. -/
structure Config (α : Type) where
  norm : NormPair := .minMax
  activation : Activation := .minimum
  accumulation : Accumulation := .maximum
  /-- How many grid points declared output variables get. -/
  resolution : Setting α := .integer 200
  defuzzification : Defuzzification := .gravity
  /-- The output of a declared variable when no rule fires. -/
  defaultValue : Setting α

/-- A resolution read from a setting; it is at least one. -/
def resolution? {α : Type} [Scalar α] (value : Setting α) : Except Fault Nat :=
  match value.toInt? with
  | .error cause => .error (.setting cause)
  | .ok n => if n < 1 then .error (.misconfigured (.resolution value.plain)) else .ok n.toNat

namespace Config

variable {α : Type} [Scalar α]

/-- The settings of a controller that is not configured. -/
def standard : Config α where
  defaultValue := .real 0

def field? (data : List (String × Setting α)) (name : String) : Option (Setting α) :=
  data.reverse.lookup name

/-- The choice that the data make, or the standard one. -/
def chosen {β : Type} (data : List (String × Setting α)) (choice : Choice β) (standard : β) :
    Except Fault β :=
  match field? data choice.name with
  | none => .ok standard
  | some value => (choice.select value).mapError .misconfigured

/-- The configuration that named values give. Other names are ignored. -/
def ofFields (data : List (String × Setting α)) : Except Fault (Config α) := do
  let norm ← chosen data .andOperator .minMax
  let activation ← chosen data .activation .minimum
  let accumulation ← chosen data .accumulation .maximum
  let defuzzification ← chosen data .defuzzification .gravity
  let resolution := (field? data "num_discretes").getD (.integer 200)
  let _ ← resolution? resolution
  let defaultValue := (field? data "default_value").getD (.real 0)
  return { norm, activation, accumulation, resolution, defuzzification, defaultValue }

/-- The named values of a configuration, in the order in which its fields are declared. -/
def fields (c : Config α) : List (String × Setting α) := [
  ("and_operator", .text c.norm.andLabel),
  ("activation_method", .text c.activation.label),
  ("accumulation_method", .text c.accumulation.label),
  ("num_discretes", c.resolution),
  ("defuzzification_method", .text c.defuzzification.label),
  ("default_value", c.defaultValue)]

/-- Whether a setting is the number `n`; a flag counts as zero or one. -/
def isNumber (value : Setting α) (n : Int) : Bool :=
  match value with
  | .flag b => n == if b then 1 else 0
  | .integer i => i == n
  | .real x => x == Scalar.ofInt n
  | _ => false

/-- Whether every field has the value that it has in a configuration without any data. -/
def isStandard (c : Config α) : Bool :=
  c.norm == .minMax && c.activation == .minimum && c.accumulation == .maximum &&
    c.defuzzification == .gravity && isNumber c.resolution 200 && isNumber c.defaultValue 0

end Config

end FuzzyInference
