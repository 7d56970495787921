/-!
# Lines of a text

A text is cut into lines at every line boundary of Unicode. A boundary at the very end opens no
further line.
-/

namespace FuzzyInference.Text

/-- Line feed, vertical tab, form feed, carriage return, three of the information separators, next
line, and the line and paragraph separators. -/
def isLineBreak (c : Char) : Bool :=
  let n := c.toNat
  (0xA ≤ n && n ≤ 0xD) || (0x1C ≤ n && n ≤ 0x1E) || n == 0x85 || n == 0x2028 || n == 0x2029

/-- Cuts a text into lines; a carriage return before a line feed makes one boundary with it. `line`
holds the line begun so far, last character first. -/
def linesFrom (line : List Char) : List Char → List (List Char)
  | [] => if line.isEmpty then [] else [line.reverse]
  | '\r' :: '\n' :: rest => line.reverse :: linesFrom [] rest
  | c :: rest =>
    if isLineBreak c then line.reverse :: linesFrom [] rest else linesFrom (c :: line) rest

/-- The lines of a text without their boundaries. -/
def lines (cs : List Char) : List (List Char) := linesFrom [] cs

end FuzzyInference.Text
