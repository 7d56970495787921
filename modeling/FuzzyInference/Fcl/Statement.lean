import FuzzyInference.Choice
import FuzzyInference.Fcl.Line
import FuzzyInference.Term

/-!
# Statements of FCL

How the statements inside a block are taken apart: terms with their points, settings, default values
and the three parts of a rule. A statement comes without its semicolon and without margins.
-/

namespace FuzzyInference.Fcl

open Text

variable {α : Type} [Scalar α]

/-- A number in a line. -/
def readNumber (role : NumberRole) (cs : List Char) : Except Problem α :=
  match Numeral.parse? cs with
  | some n => .ok (Scalar.ofNumeral n)
  | none => .error (.notANumber role (String.ofList cs))

/-! ## Words in a statement -/

/-- What follows blanks, a word and further blanks, if all of these are there and something follows
them. -/
def afterWord? (word cs : List Char) : Option (List Char) :=
  match cs with
  | [] => none
  | c :: _ =>
    if isBlank c then
      match after? word (trimLeft cs) with
      | some (b :: rest) =>
        if isBlank b ∧ trimLeft rest ≠ [] then some (trimLeft rest) else none
      | _ => none
    else none

/-- Cuts a text at the first occurrence of a word between blanks that has something before it. -/
def splitAtWord? (word : List Char) : List Char → Option (List Char × List Char)
  | [] => none
  | c :: cs =>
    match afterWord? word cs with
    | some rest => some ([c], rest)
    | none => (splitAtWord? word cs).map fun (before, rest) => (c :: before, rest)

/-! ## Terms -/

/-- The inside of a pair of brackets that holds no brackets, and what follows it. The opening
bracket has been read already. -/
def bracketed? (cs : List Char) : Option (List Char × List Char) :=
  let isBracket (c : Char) : Bool := c == '(' || c == ')'
  match cs.dropWhile (!isBracket ·) with
  | ')' :: rest => some (cs.takeWhile (!isBracket ·), rest)
  | _ => none

theorem length_bracketed?_lt {cs inside rest : List Char}
    (h : bracketed? cs = some (inside, rest)) : rest.length < cs.length := by
  unfold bracketed? at h
  dsimp only at h
  split at h
  · rename_i tail ht
    simp only [Option.some.injEq, Prod.mk.injEq] at h
    have := (List.dropWhile_suffix (fun c => !(c == '(' || c == ')')) (l := cs)).length_le
    rw [ht] at this
    simp only [List.length_cons] at this
    rw [← h.2]
    omega
  · cases h

/-- The insides of all innermost pairs of brackets, and what stands outside of them. -/
def splitBrackets (cs : List Char) : List (List Char) × List Char :=
  match cs with
  | [] => ([], [])
  | '(' :: body =>
    match h : bracketed? body with
    | some (inside, rest) =>
      have := length_bracketed?_lt h
      let found := splitBrackets rest
      (inside :: found.1, found.2)
    | none =>
      let found := splitBrackets body
      (found.1, '(' :: found.2)
  | c :: rest =>
    let found := splitBrackets rest
    (found.1, c :: found.2)
termination_by cs.length

/-- A point from the inside of its brackets: two numbers with a comma between them. -/
def readPoint (inside : List Char) : Except Problem (Point α) :=
  match inside.dropWhile (· != ',') with
  | _ :: second =>
    if ',' ∈ second then .error (.pointShape (String.ofList inside))
    else do
      let x ← readNumber .x (trim (inside.takeWhile (· != ',')))
      let y ← readNumber .y (trim second)
      return ⟨x, y⟩
  | [] => .error (.pointShape (String.ofList inside))

/-- The points of a term: pairs in brackets, with blanks around them. -/
def readPoints (cs : List Char) : Except Problem (List (Point α)) := do
  if cs.count '(' ≠ cs.count ')' then throw .unbalancedPoints
  let (groups, stray) := splitBrackets cs
  if trim stray ≠ [] then throw .strayPoints
  groups.mapM readPoint

/-- The name and the points of a term statement. The name goes up to the first colon with an equals
sign that has something before it; if these stand where the name begins, the last of two or more
blanks before them is the name. -/
def termParts? (statement : List Char) : Option (List Char × List Char) :=
  match after? "TERM".toList statement with
  | none => none
  | some tail =>
    let blanks := tail.takeWhile isBlank
    match tail.dropWhile isBlank with
    | [] => none
    | c :: rest =>
      if blanks.isEmpty then none
      else
        match splitAt? [':', '='] rest with
        | some (name, points) => some (trimRight (c :: name), trimLeft points)
        | none =>
          -- the marks stand where the name begins, so a blank has to be the name
          match after? [':', '='] (c :: rest), blanks.getLast? with
          | some points, some blank =>
            if 2 ≤ blanks.length then some ([blank], trimLeft points) else none
          | _, _ => none

def readTerm (statement : List Char) : Except Problem (Term α) := do
  match termParts? statement with
  | none => throw .termShape
  | some (name, text) =>
    let points ← readPoints text
    let name := String.ofList name
    if points.isEmpty then throw (.noPoints name)
    return .ofPoints name points

/-! ## Settings and default values -/

/-- The value of a setting: one word behind a colon. -/
def settingValue? (keyword statement : List Char) : Option (List Char) :=
  match after? keyword statement with
  | none => none
  | some tail =>
    match trimLeft tail with
    | ':' :: rest =>
      let value := trimLeft rest
      if value ≠ [] ∧ value.all (!isBlank ·) then some value else none
    | _ => none

/-- The choice that a setting makes. -/
def readSetting {β : Type} (keyword : String) (choice : Choice β) (statement : List Char) :
    Except Problem β :=
  match settingValue? keyword.toList statement with
  | none => .error (.settingShape keyword)
  | some value =>
    match choice.find? (String.ofList value) with
    | some b => .ok b
    | none => .error (.unsupported keyword (String.ofList value) choice.labels)

def readDefault (statement : List Char) : Except Problem α :=
  match (after? "DEFAULT".toList statement).bind fun tail => after? [':', '='] (trimLeft tail) with
  | none => .error .defaultShape
  | some tail =>
    let value := trim tail
    if value = [] then .error .defaultShape else readNumber .default value

/-! ## Rules -/

/-- What follows the number of a rule and the word that opens its condition: the blanks behind that
word, and the rest. -/
def ruleBody? (statement : List Char) : Option (List Char × List Char) :=
  match after? "RULE".toList statement with
  | none => none
  | some tail =>
    let number := tail.takeWhile (· != ':')
    -- the number itself is not looked at
    match number, tail.dropWhile (· != ':') with
    | c :: _ :: _, _ :: rest =>
      if isBlank c then
        match after? ['I', 'F'] (trimLeft rest) with
        | none => none
        | some tail => some (tail.takeWhile isBlank, tail.dropWhile isBlank)
      else none
    | _, _ => none

/-- The condition and the conclusion of a rule statement. If the conclusion follows at once on three
or more blanks, one of these is the condition. -/
def ruleParts? (statement : List Char) : Option (List Char × List Char) :=
  match ruleBody? statement with
  | none => none
  | some (blanks, body) =>
    if blanks.isEmpty then none
    else
      match splitAtWord? "THEN".toList body with
      | some parts => some parts
      | none =>
        -- one blank as the condition, and one on either side of it
        if 3 ≤ blanks.length then
          (afterWord? "THEN".toList (blanks ++ body)).map fun rest => (blanks.take 1, rest)
        else none

/-- The weight at the end of a conclusion, and what stands before it. -/
def splitWeight (cs : List Char) : List Char × Option (List Char) :=
  let mirrored := cs.reverse
  let weight := mirrored.takeWhile (!isBlank ·)
  match afterWord? "WITH".toList.reverse (mirrored.dropWhile (!isBlank ·)) with
  | some term => (term.reverse, some weight.reverse)
  | none => (cs, none)

/-- The variable, the term and the weight of a conclusion. -/
def conclusionParts? (cs : List Char) : Option (List Char × List Char × Option (List Char)) :=
  (splitAtWord? ['I', 'S'] cs).map fun (name, rest) => (name, splitWeight rest)

end FuzzyInference.Fcl
