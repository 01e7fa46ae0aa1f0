import VectorLang.Text.Blank

/-!
# Lines of a text

A text is cut into lines at every line boundary of the Unicode standard and at the
information separators 1C, 1D and 1E.  The boundary itself belongs to no line, a carriage
return with the newline after it is one boundary, and a boundary at the very end opens
no further line.
-/

namespace VectorLang.Text

/-- A character that ends a line. -/
def isLineEnd (c : Char) : Bool :=
  let n := c.toNat
  (0x0A ≤ n && n ≤ 0x0D) || (0x1C ≤ n && n ≤ 0x1E) || n == 0x85 || n == 0x2028 || n == 0x2029

/-- The lines of the text `line.reverse ++ cs`, where `line` holds no line end and is the
    part of the current line read so far, last character first. -/
def linesFrom (line : List Char) : List Char → List (List Char)
  | [] => if line.isEmpty then [] else [line.reverse]
  | '\r' :: '\n' :: cs => line.reverse :: linesFrom [] cs
  | c :: cs => if isLineEnd c then line.reverse :: linesFrom [] cs else linesFrom (c :: line) cs

/-- The lines of a text. -/
def lines (cs : List Char) : List (List Char) :=
  linesFrom [] cs

/-- A text in which each carriage return, with the newline that may follow it, is written
    as one newline. -/
def unifyNewlines : List Char → List Char
  | [] => []
  | '\r' :: '\n' :: cs => '\n' :: unifyNewlines cs
  | c :: cs => (if c = '\r' then '\n' else c) :: unifyNewlines cs

end VectorLang.Text
