import FuzzyInference.Fault
import FuzzyInference.Text.Lines

/-!
# Lines of FCL

A line of FCL text with its number, its characters as they were given, and what remains of them
without comments and margins. Comments are `(* … *)` within a line and `// …` up to its end.
-/

namespace FuzzyInference.Fcl

open Text (trim)

/-- What follows the end of a comment in brackets. -/
def afterComment? : List Char → Option (List Char)
  | '*' :: ')' :: rest => some rest
  | _ :: rest => afterComment? rest
  | [] => none

theorem length_afterComment?_lt {cs rest : List Char} (h : afterComment? cs = some rest) :
    rest.length < cs.length := by
  fun_induction afterComment? cs with
  | case1 =>
    simp only [Option.some.injEq] at h
    subst h
    simp only [List.length_cons]
    omega
  | case2 c cs _ ih => exact Nat.lt_succ_of_lt (ih h)
  | case3 => simp at h

/-- Every comment in brackets becomes a space. A bracket that is not closed stays. -/
def dropComments (cs : List Char) : List Char :=
  match cs with
  | [] => []
  | '(' :: '*' :: body =>
    match h : afterComment? body with
    | some rest =>
      have := length_afterComment?_lt h
      ' ' :: dropComments rest
    | none => '(' :: dropComments ('*' :: body)
  | c :: rest => c :: dropComments rest
termination_by cs.length

/-- What stands before the first two slashes. -/
def beforeSlashes : List Char → List Char
  | [] => []
  | '/' :: '/' :: _ => []
  | c :: rest => c :: beforeSlashes rest

/-- What a line says: its characters without comments and margins. -/
def content (raw : List Char) : List Char := trim (beforeSlashes (dropComments raw))

/-- A letter or a low line. -/
def isWordStart (c : Char) : Bool := c.isAlpha || c == '_'

/-- A letter, a digit or a low line. -/
def isWordChar (c : Char) : Bool := c.isAlphanum || c == '_'

/-- The word that a text begins with; it is empty if the text begins with no word. -/
def leadingWord : List Char → List Char
  | [] => []
  | c :: rest => if isWordStart c then c :: rest.takeWhile isWordChar else []

structure Line where
  number : Nat
  raw : List Char
  content : List Char
  deriving Repr, DecidableEq

namespace Line

/-- The line of a number, counted from one. -/
def ofRaw (number : Nat) (raw : List Char) : Line := ⟨number, raw, Fcl.content raw⟩

/-- The fault of a line that cannot be read. -/
def fault (line : Line) (problem : Problem) : Fault :=
  .unreadable line.number (String.ofList line.raw) problem

/-- A result of reading the line, with problems as faults of the line. -/
def judge {β : Type} (line : Line) (result : Except Problem β) : Except Fault β :=
  result.mapError line.fault

def keyword (line : Line) : String := String.ofList (leadingWord line.content)

/-- What stands behind the keyword, without margins. -/
def subject (line : Line) : String :=
  String.ofList (trim (line.content.drop (leadingWord line.content).length))

/-- The line without its semicolon and what margin that leaves. -/
def statement (line : Line) : Except Problem (List Char) :=
  if line.content.getLast? = some ';' then .ok (trim line.content.dropLast)
  else .error .missingSemicolon

end Line

/-- The lines of a text. -/
def linesOf (text : List Char) : List Line :=
  (Text.lines text).zipIdx.map fun (raw, i) => Line.ofRaw (i + 1) raw

end FuzzyInference.Fcl
