import FuzzyInference.Text.Quoted

/-!
# Misconfigurations

What can be wrong with a controller, its variables and its options before they are used, each cause
with the words that report it.
-/

namespace FuzzyInference

open Text (quoted)

/-- What a checked name belongs to. -/
inductive NameRole where
  | block
  | ofVariable
  | ofTerm (owner : String)
  deriving Repr, DecidableEq

/-- The role as the beginning of a sentence. -/
def NameRole.text : NameRole → String
  | .block => "Function block"
  | .ofVariable => "Variable"
  | .ofTerm owner => "Term of " ++ quoted owner

/-- Why something cannot be configured, or cannot be used as it is configured. -/
inductive Misconfiguration where
  /-- A setting that is none of the choices of its option. -/
  | notAChoice (option shown : String) (choices : List String)
  | resolution (plain : String)
  | noPoints (term : String)
  | termIndex (index : Int) (owner : String) (count : Nat)
  | sampleIndex (index : Int) (term : String) (count : Nat)
  | gridIndex (index : Int) (output : String) (count : Nat)
  /-- An output variable whose grid is asked for before it is built. -/
  | noGrid (output : String)
  | noTerms (output : String)
  /-- An output variable with an unsampled term at the start of an evaluation. -/
  | notDiscretized (output : String)
  | unknownInConditions (name : String)
  | unknownRuleInput (name : String)
  | unknownRuleOutput (name : String)
  | unknownInput (name : String)
  | unknownOutput (name : String)
  | duplicateVariable (name : String)
  | smallUniformPartition
  | smallTrianglePartition
  /-- Columns of a batch that do not have one length. -/
  | unequalLengths (lengths : List Nat)
  | emptyName (role : NameRole)
  | unwritableName (role : NameRole) (name : String)
  | reservedName (role : NameRole) (name : String)
  /-- A cause that is given in words. -/
  | stated (reason : String)
  deriving Repr, DecidableEq

/-- The sentence that reports a misconfiguration. -/
def Misconfiguration.message : Misconfiguration → String
  | .notAChoice option shown choices =>
    "Invalid " ++ option ++ "=" ++ shown ++ ". Allowed options: " ++
      ", ".intercalate (choices.map quoted)
  | .resolution plain => "num_discretes must be at least 1, got " ++ plain
  | .noPoints term => "Membership function " ++ quoted term ++ " has no data points"
  | .termIndex index owner count =>
    "Term index " ++ toString index ++ " out of range for variable " ++ quoted owner ++ " with " ++
      toString count ++ " terms"
  | .sampleIndex index term count =>
    "Discrete index " ++ toString index ++ " out of range for " ++ quoted term ++ " with " ++
      toString count ++ " samples"
  | .gridIndex index output count =>
    "Grid index " ++ toString index ++ " out of range for " ++ quoted output ++ " with " ++
      toString count ++ " points"
  | .noGrid output => "Output variable " ++ quoted output ++ " has not been discretized"
  | .noTerms output => "Output variable " ++ quoted output ++ " has no terms to discretize"
  | .notDiscretized output =>
    "Output variable " ++ quoted output ++ " must be discretized before evaluation"
  | .unknownInConditions name => "Condition refers to unknown variable " ++ quoted name
  | .unknownRuleInput name => "Rule condition refers to unknown input variable " ++ quoted name
  | .unknownRuleOutput name => "Rule conclusion refers to unknown output variable " ++ quoted name
  | .unknownInput name => "No input variable named " ++ quoted name
  | .unknownOutput name => "No output variable named " ++ quoted name
  | .duplicateVariable name => "Duplicate variable name " ++ quoted name
  | .smallUniformPartition => "A uniform partition needs at least 2 terms"
  | .smallTrianglePartition => "A triangle partition needs at least 2 terms"
  | .unequalLengths lengths =>
    "All input arrays must have the same length, got [" ++
      ", ".intercalate (lengths.map toString) ++ "]"
  | .emptyName role => role.text ++ " name must not be empty"
  | .unwritableName role name =>
    role.text ++ " name " ++ quoted name ++
      " cannot be written as FCL: use single spaces and none of ( ) ; : //"
  | .reservedName role name =>
    role.text ++ " name " ++ quoted name ++ " cannot be written as FCL: it contains a keyword"
  | .stated reason => reason

end FuzzyInference
