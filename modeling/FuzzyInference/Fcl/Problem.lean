import FuzzyInference.Misconfiguration

/-!
# Problems of an FCL line

Everything that can be wrong with a line of FCL text, with the words that report it.
-/

namespace FuzzyInference.Fcl

open Text (quoted)

inductive Block where
  | inputs
  | outputs
  | fuzzify
  | defuzzify
  | rules
  deriving Repr, DecidableEq

/-- The word that opens a block. -/
def Block.keyword : Block → String
  | .inputs => "VAR_INPUT"
  | .outputs => "VAR_OUTPUT"
  | .fuzzify => "FUZZIFY"
  | .defuzzify => "DEFUZZIFY"
  | .rules => "RULEBLOCK"

/-- The place of a number in an FCL line. -/
inductive NumberRole where
  | x
  | y
  | default
  | weight
  deriving Repr, DecidableEq

/-- The place as the beginning of a sentence. -/
def NumberRole.text : NumberRole → String
  | .x => "x"
  | .y => "y"
  | .default => "DEFAULT"
  | .weight => "Rule weight"

/-- What is wrong with a line. -/
inductive Problem where
  | missingSemicolon
  | notANumber (role : NumberRole) (text : String)
  | termShape
  | unbalancedPoints
  | strayPoints
  | pointShape (inside : String)
  | noPoints (term : String)
  | settingShape (keyword : String)
  | unsupported (keyword value : String) (choices : List String)
  | emptyCondition
  | unexpectedToken (token : String)
  | unbalancedCondition
  | conditionShape
  | missingTermName
  | unknownInput (name : String)
  | unknownInputTerm (name term : String)
  | ruleShape
  | conclusionShape
  | unknownOutput (name : String)
  | unknownOutputTerm (name term : String)
  | repeatedBlock (block : Block) (name : String)
  | undeclaredInput (name : String)
  | undeclaredOutput (name : String)
  | unexpectedOutside (words : String)
  | unexpectedInside (keyword : String) (block : Block)
  | declarationShape
  | missingVariableName
  | misconfigured (cause : Misconfiguration)
  | noTerms (output : String)
  | defaultShape
  | unterminated (block : Block)
  /-- A problem that is given in words. -/
  | stated (reason : String)
  deriving Repr, DecidableEq

/-- The block as the end of a sentence about a line inside it. -/
def Block.inside : Block → String
  | .rules => "RULEBLOCK"
  | block => block.keyword ++ " block"

/-- The words that report a problem. -/
def Problem.message : Problem → String
  | .missingSemicolon => "Missing ';' at end of statement"
  | .notANumber role text => role.text ++ " is not a number: " ++ quoted text
  | .termShape => "Expected 'TERM <name> := (x, y) ...;'"
  | .unbalancedPoints => "Unbalanced parentheses in term points"
  | .strayPoints => "Term points must be written as '(x, y)' pairs"
  | .pointShape inside => "Expected '(x, y)', got '(" ++ inside ++ ")'"
  | .noPoints term => "Term " ++ quoted term ++ " has no points"
  | .settingShape keyword => "Expected '" ++ keyword ++ " : <value>;'"
  | .unsupported keyword value choices =>
    "Unsupported " ++ keyword ++ " " ++ quoted value ++ "; allowed: " ++ ", ".intercalate choices
  | .emptyCondition => "Empty rule condition"
  | .unexpectedToken token => "Unexpected " ++ quoted token ++ " in rule condition"
  | .unbalancedCondition => "Unbalanced parentheses in rule condition"
  | .conditionShape => "Expected '<variable> IS [NOT] <term>' in rule condition"
  | .missingTermName => "Missing term name in rule condition"
  | .unknownInput name => "No input variable named " ++ quoted name
  | .unknownInputTerm name term =>
    "Input variable " ++ quoted name ++ " has no term " ++ quoted term
  | .ruleShape => "Expected 'RULE <n> : IF <condition> THEN <conclusion>;'"
  | .conclusionShape => "Expected '<variable> IS <term> [WITH <weight>]' after THEN"
  | .unknownOutput name => "No output variable named " ++ quoted name
  | .unknownOutputTerm name term =>
    "Output variable " ++ quoted name ++ " has no term " ++ quoted term
  | .repeatedBlock block name => "Repeated " ++ block.keyword ++ " block for " ++ quoted name
  | .undeclaredInput name => "FUZZIFY of undeclared input variable " ++ quoted name
  | .undeclaredOutput name => "DEFUZZIFY of undeclared output variable " ++ quoted name
  | .unexpectedOutside words => "Unexpected statement " ++ quoted words
  | .unexpectedInside keyword block =>
    "Unexpected statement " ++ quoted keyword ++ " in " ++ block.inside
  | .declarationShape => "Expected '<name> : <type>;' in variable declaration"
  | .missingVariableName => "Missing variable name"
  | .misconfigured cause => cause.message
  | .noTerms output => "Output variable " ++ quoted output ++ " has no terms"
  | .defaultShape => "Expected 'DEFAULT := <value>;'"
  | .unterminated block => "Unterminated " ++ block.keyword ++ " block"
  | .stated reason => reason

end FuzzyInference.Fcl
