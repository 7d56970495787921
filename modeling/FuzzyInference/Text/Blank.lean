/-!
# Blank characters

The characters that separate words and that are trimmed from the ends of a text, with the trimming
itself. Texts are lists of characters here: readers take them apart from the front.
-/

namespace FuzzyInference.Text

/-- The white space of Unicode together with the four information separators. -/
def isBlank (c : Char) : Bool :=
  let n := c.toNat
  (0x9 ≤ n && n ≤ 0xD) || (0x1C ≤ n && n ≤ 0x20) || n == 0x85 || n == 0xA0 || n == 0x1680 ||
    (0x2000 ≤ n && n ≤ 0x200A) || n == 0x2028 || n == 0x2029 || n == 0x202F || n == 0x205F ||
    n == 0x3000

def trimLeft (cs : List Char) : List Char := cs.dropWhile isBlank

def trimRight (cs : List Char) : List Char := (cs.reverse.dropWhile isBlank).reverse

def trim (cs : List Char) : List Char := trimRight (trimLeft cs)

/-- What follows `word` in `cs`, if `cs` begins with it. -/
def after? (word : List Char) (cs : List Char) : Option (List Char) :=
  match word, cs with
  | [], rest => some rest
  | _ :: _, [] => none
  | w :: word, c :: cs => if w = c then after? word cs else none

theorem after?_append (word rest : List Char) : after? word (word ++ rest) = some rest := by
  induction word with
  | nil => simp [after?]
  | cons w word ih => simp [after?, ih]

theorem eq_append_of_after? {word cs rest : List Char} (h : after? word cs = some rest) :
    cs = word ++ rest := by
  induction word generalizing cs with
  | nil => simp_all [after?]
  | cons w word ih =>
    cases cs with
    | nil => simp [after?] at h
    | cons c cs =>
      by_cases hc : w = c
      · simp only [after?, hc, if_true] at h
        simp [hc, ih h]
      · simp [after?, hc] at h

/-- The text before the first occurrence of `mark`, and the text after it. -/
def splitAt? (mark : List Char) (cs : List Char) : Option (List Char × List Char) :=
  match after? mark cs with
  | some rest => some ([], rest)
  | none =>
    match cs with
    | [] => none
    | c :: cs => (splitAt? mark cs).map fun (before, rest) => (c :: before, rest)

end FuzzyInference.Text
