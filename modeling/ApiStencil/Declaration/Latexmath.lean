/-
ApiStencil/Declaration/Latexmath.lean

Lengths in mathematical notation.  Two forms are known, a division of two
operands and the same division rounded up:

    latexmath:[\textrm{codeSize} \over 4]
    latexmath:[\lceil{\mathit{rasterizationSamples} \over 32}\rceil]

An operand is a number, or a text in a font command.
-/
import ApiStencil.Text.Blank
import ApiStencil.Text.Search

namespace ApiStencil.Declaration

open Text

/-- A division of two operands, rounded down or up. -/
structure Quotient where
  numerator : List Char
  denominator : List Char
  roundsUp : Bool
deriving DecidableEq, Repr

namespace Quotient

/-- The division as an expression.  Rounding up adds one. -/
def render (q : Quotient) : List Char :=
  q.numerator ++ '/' :: q.denominator ++ if q.roundsUp then " + 1".toList else []

/-- A text without the blanks at its start. -/
def skipBlanks (s : List Char) : List Char :=
  s.dropWhile isLayout

/-- A text with every escaped underscore replaced by a plain one. -/
def unescape : List Char → List Char
  | [] => []
  | '\\' :: '_' :: r => '_' :: unescape r
  | c :: r => c :: unescape r

/-- Reads the text in a font command, after the backslash. -/
def readFontCommand (s : List Char) : Option (List Char × List Char) :=
  match s.takeWhile Char.isAlpha, s.dropWhile Char.isAlpha with
  | _ :: _, '{' :: r =>
    match r.takeWhile (· ≠ '}'), r.dropWhile (· ≠ '}') with
    | c :: inside, _ :: rest => some (unescape (c :: inside), rest)
    | _, _ => none
  | _, _ => none

/-- Reads an operand. -/
def readOperand : List Char → Option (List Char × List Char)
  | '\\' :: r => readFontCommand r
  | s =>
    match s.takeWhile Char.isDigit with
    | [] => none
    | digits => some (digits, s.dropWhile Char.isDigit)

/-- Reads two operands with the division sign between them, and the blanks around them. -/
def readOperands (roundsUp : Bool) (s : List Char) : Option (Quotient × List Char) := do
  let (numerator, r) ← readOperand (skipBlanks s)
  let r ← "\\over".toList.isPrefixOf? (skipBlanks r)
  let (denominator, r) ← readOperand (skipBlanks r)
  return (⟨numerator, denominator, roundsUp⟩, skipBlanks r)

/-- Reads a division that is rounded up. -/
def readCeiling (s : List Char) : Option (Quotient × List Char) := do
  let r ← "\\lceil".toList.isPrefixOf? s
  let r ← ['{'].isPrefixOf? (skipBlanks r)
  let (q, r) ← readOperands true r
  let r ← ['}'].isPrefixOf? r
  let r ← "\\rceil".toList.isPrefixOf? (skipBlanks r)
  return (q, r)

/-- Reads a division of either form. -/
def read (s : List Char) : Option (Quotient × List Char) :=
  (readCeiling s).orElse fun _ => readOperands false s

/-- The text between the marks around a length in mathematical notation. -/
def body? (text : List Char) : Option (List Char) := do
  let r ← "latexmath:[".toList.isPrefixOf? text
  [']'].isSuffixOf? r

/-- The division that a length in mathematical notation stands for. -/
def ofText? (text : List Char) : Option Quotient := do
  let body ← body? text
  let (q, rest) ← read (skipBlanks body)
  if skipBlanks rest = [] then some q else none

end Quotient

end ApiStencil.Declaration
