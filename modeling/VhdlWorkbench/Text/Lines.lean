/-!
Line ends: those of files are turned into line feeds, and cutting into lines accepts every separator.
-/

namespace VhdlWorkbench.Text

/-- A character that ends a line by itself when a text is cut into lines. -/
def isLineEnd (c : Char) : Bool :=
  let n := c.toNat
  (10 ≤ n && n ≤ 13) || (28 ≤ n && n ≤ 30) || n == 133 || n == 8232 || n == 8233

/-- The lines of a text; `line` is the line read so far, reversed. A final line end opens no line. -/
def linesFrom (line : List Char) : List Char → List (List Char)
  | [] => if line.isEmpty then [] else [line.reverse]
  | '\r' :: '\n' :: rest => line.reverse :: linesFrom [] rest
  | c :: rest =>
    if isLineEnd c then line.reverse :: linesFrom [] rest else linesFrom (c :: line) rest

def lines (s : String) : List String :=
  (linesFrom [] s.toList).map String.ofList

/-- Every line end of a file, `\r\n` or `\r`, becomes a line feed. -/
def normalizeLineEnds : List Char → List Char
  | [] => []
  | '\r' :: '\n' :: rest => '\n' :: normalizeLineEnds rest
  | c :: rest => (if c == '\r' then '\n' else c) :: normalizeLineEnds rest

end VhdlWorkbench.Text
