/-
ApiStencil/Declaration/Length.lean

The length that a declaration's `len` attribute gives.  The attribute lists the
lengths of an array level by level; the first one that is a length at all counts.
A length is a path to a member, an expression, or a division in mathematical
notation.
-/
import ApiStencil.Declaration.Error
import ApiStencil.Declaration.Latexmath
import ApiStencil.Text.Uppercase

namespace ApiStencil.Declaration

open Text

/-! ### The parts of the attribute -/

/-- The parts of a text between the commas that stand in no brackets, where `depth` brackets are
open and the first part starts with the reverse of `part`. -/
def splitFrom (depth : Nat) (part : List Char) : List Char → List (List Char)
  | [] => [part.reverse]
  | c :: r =>
    if c = ',' ∧ depth = 0 then part.reverse :: splitFrom 0 [] r
    else
      let depth' := if c = '[' then depth + 1 else if c = ']' then depth - 1 else depth
      splitFrom depth' (c :: part) r

/-- The parts of a `len` attribute, without the spaces around them. -/
def splitLengths (len : List Char) : List (List Char) :=
  (splitFrom 0 [] len).map trim

/-- The mark for a text that ends with a null character. -/
def nullTerminated : List Char :=
  "null-terminated".toList

/-- The lengths that a `len` attribute lists. -/
def lengths (len : List Char) : List (List Char) :=
  (splitLengths len).filter fun part => part ≠ [] ∧ part ≠ nullTerminated

/-! ### Paths -/

/-- The segments of a path to a member of another struct, however it is written. -/
def pathSegments? (length : List Char) : Option (List (List Char)) :=
  if occursIn "::".toList length then some ((splitAll ':' [':'] length).map trim)
  else if occursIn "->".toList length then some ((splitAll '-' ['>'] length).map trim)
  else none

/-- Whether a path ends in a member named as a pointer and starts with a parameter named as one:
a `p` in front of the first, a capital in second place of the other. -/
def dereferences (segments : List (List Char)) : Bool :=
  (segments.getLast?.bind List.head?) = some 'p' &&
    (segments.head?.bind (·[1]?)).any isUppercase

/-- A length as an expression.  A path becomes a chain of arrows, with an asterisk in front if it
has to be dereferenced. -/
def normalizePath (length : List Char) : List Char :=
  match pathSegments? length with
  | none => length
  | some segments =>
    let path := "->".toList.intercalate segments
    if dereferences segments then '*' :: path else path

/-! ### The length -/

/-- Reads a length in mathematical notation. -/
def readLatexmath (text : List Char) : Except Error (List Char) :=
  match Quotient.ofText? text with
  | some q => .ok q.render
  | none => .error (.unsupportedLatexmath (String.ofList text))

/-- The expression for one length. -/
def lengthExpression (length : List Char) : Except Error (List Char) :=
  if "latexmath".toList.isPrefixOf length then readLatexmath length
  else .ok (normalizePath length)

/-- The expression for the first length of a `len` attribute. -/
def attributeLength (len : List Char) : Except Error (Option (List Char)) :=
  match (lengths len).head? with
  | none => .ok none
  | some length => (lengthExpression length).map some

/-- The notice about a `len` attribute that lists several lengths. -/
def lengthNotice? (name : String) (len : List Char) : Option Notice :=
  match lengths len with
  | first :: _ :: _ => some ⟨name, String.ofList len, String.ofList first⟩
  | _ => none

end ApiStencil.Declaration
