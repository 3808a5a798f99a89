/-
ApiStencil/Output/LineDiff.lean

The difference of two texts as one block of lines: what is left of either when the
lines that both begin with and the lines that both end with are taken away.
-/
import ApiStencil.Text.Lines

namespace ApiStencil.Output

universe u

/-- How many elements two lists begin with in common. -/
def commonLength {α : Type u} [DecidableEq α] : List α → List α → Nat
  | a :: r, b :: s => if a = b then commonLength r s + 1 else 0
  | _, _ => 0

/-- A block of lines that replaces another one. -/
structure Hunk where
  /-- The number of lines in front of the block. -/
  start : Nat
  removed : List (List Char)
  added : List (List Char)
deriving DecidableEq, Repr

namespace Hunk

/-- The block of lines in which two texts differ. -/
def between (old new : List (List Char)) : Hunk :=
  let start := commonLength old new
  let old := old.drop start
  let new := new.drop start
  let stop := commonLength old.reverse new.reverse
  ⟨start, old.take (old.length - stop), new.take (new.length - stop)⟩

/-- The position and the size of a block. -/
def range (position size : Nat) : List Char :=
  (toString position ++ "," ++ toString size).toList

/-- Each line with a mark in front and a line break after it. -/
def marked (mark : Char) (lines : List (List Char)) : List Char :=
  lines.flatMap fun line => mark :: line ++ ['\n']

/-- The block as text, after a line that gives its position and sizes. -/
def render (h : Hunk) : List Char :=
  "@@ -".toList ++ range (h.start + 1) h.removed.length ++ " +".toList ++
    range (h.start + 1) h.added.length ++ " @@\n".toList ++ marked '-' h.removed ++
    marked '+' h.added

end Hunk

/-- The difference of two texts. -/
def lineDiff (old new : List Char) : List Char :=
  (Hunk.between (Text.lines old) (Text.lines new)).render

end ApiStencil.Output
