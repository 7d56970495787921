import FuzzyInference.Fcl.Line

/-!
# Tokens of a condition

A condition is cut into brackets and words. Words are separated by blanks and brackets, and only by
these.
-/

namespace FuzzyInference.Fcl

open Text (isBlank)

/-- A piece of a condition. -/
inductive Token where
  | opening
  | closing
  | word (text : String)
  deriving Repr, DecidableEq

namespace Token

/-- The characters of a token. -/
def text : Token → String
  | .opening => "("
  | .closing => ")"
  | .word text => text

def isWordChar (c : Char) : Bool := !(isBlank c || c == '(' || c == ')')

/-- The tokens of a text behind the word begun so far, which is given last character first. -/
def scan (begun : List Char) : List Char → List Token
  | [] => flush []
  | '(' :: rest => flush (.opening :: scan [] rest)
  | ')' :: rest => flush (.closing :: scan [] rest)
  | c :: rest => if isBlank c then flush (scan [] rest) else scan (c :: begun) rest
where
  /-- The begun word, if there is one, before further tokens. -/
  flush (tokens : List Token) : List Token :=
    if begun.isEmpty then tokens else .word (String.ofList begun.reverse) :: tokens

def ofText (cs : List Char) : List Token := scan [] cs

end Token

end FuzzyInference.Fcl
