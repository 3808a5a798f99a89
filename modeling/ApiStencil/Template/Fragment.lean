/-
ApiStencil/Template/Fragment.lean

The output of a template before it is written: texts, and the beginnings and ends
of guarded parts.  Guards stand on lines of their own; a line break is inserted in
front of one where the text before it ends within a line.
-/

namespace ApiStencil.Template

/-- A text, or the beginning or the end of a guarded part. -/
inductive Fragment where
  | text (s : List Char)
  /-- What follows is compiled only if the symbol is defined. -/
  | guardStart (symbol : String)
  | guardEnd
deriving DecidableEq, Repr

namespace Fragment

/-- The line of a guard, without a line break in front. -/
def guardLine : Fragment → List Char
  | .text _ => []
  | .guardStart symbol => "#if defined(".toList ++ symbol.toList ++ ")\n".toList
  | .guardEnd => "#endif\n".toList

/-- Whether a line starts after `s`, where `fresh` says that one starts before it. -/
def freshAfter (fresh : Bool) (s : List Char) : Bool :=
  match s.getLast? with
  | none => fresh
  | some c => c = '\n'

/-- Writes fragments.  `fresh` says that the first one starts a line. -/
def render (fresh : Bool) : List Fragment → List Char
  | [] => []
  | .text s :: r => s ++ render (freshAfter fresh s) r
  | f :: r => (if fresh then [] else ['\n']) ++ f.guardLine ++ render true r

end Fragment

end ApiStencil.Template
