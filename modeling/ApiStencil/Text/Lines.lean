/-
ApiStencil/Text/Lines.lean

The lines of a text.  A line ends at a line feed, with which a carriage return
directly before it is taken away; a text that ends with a line feed has no empty
last line.
-/

namespace ApiStencil.Text

/-- A line without the carriage return its line break may hold. -/
def dropReturn (line : List Char) : List Char :=
  if line.getLast? = some '\r' then line.dropLast else line

/-- `linesFrom line text` are the lines of `text`, the first of which starts with the
reverse of `line`. -/
def linesFrom (line : List Char) : List Char → List (List Char)
  | [] => if line = [] then [] else [line.reverse]
  | c :: r =>
    if c = '\n' then dropReturn line.reverse :: linesFrom [] r else linesFrom (c :: line) r

/-- The lines of a text, without their line breaks. -/
def lines (text : List Char) : List (List Char) :=
  linesFrom [] text

end ApiStencil.Text
