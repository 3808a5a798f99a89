/-
ApiStencil/Registry/Number.lean

The numbers of a registry: integers as they are written in C, and the values that
extensions reserve for the options they add.

What is read is a signed 64-bit integer (`readInt?`).  What is computed from it here is
an integer without bounds, and so stands for 64-bit arithmetic only where that does not
overflow; the definitions say when this is so.  For a whole document,
`Document.InRange` asks it of every value that an enumeration gets.
-/
import ApiStencil.Text.Blank
import ApiStencil.Text.Numeral

namespace ApiStencil.Number

open Text

/-- Whether `c` may stand at the end of an integer in C. -/
def isSuffix (c : Char) : Bool :=
  c = 'U' || c = 'u' || c = 'L' || c = 'l'

/-- A text without the characters at its end that satisfy `p`. -/
def dropEnd (p : Char → Bool) (s : List Char) : List Char :=
  (s.reverse.dropWhile p).reverse

/-- An integer without spaces, parentheses and suffix around it. -/
def bare (s : List Char) : List Char :=
  dropEnd isSuffix (dropEnd (· = ')') ((trim s).dropWhile (· = '(')))

/-- The magnitude of an integer, in decimal or after `0x` in hexadecimal. -/
def readMagnitude? (s : List Char) : Option Int :=
  match s with
  | '0' :: 'x' :: digits => readInt? 16 digits
  | '0' :: 'X' :: digits => readInt? 16 digits
  | _ => readInt? 10 s

/-- The integer that a text writes in C, if it writes one.  It has 64 bits with one exception, a
second minus sign in front of the least integer: `--9223372036854775808` would be one more than the
greatest. -/
def ofText? (s : List Char) : Option Int :=
  match bare s with
  | '-' :: magnitude => (readMagnitude? magnitude).map fun n => -n
  | magnitude => readMagnitude? magnitude

/-- The number with one bit set, as a signed 64-bit integer.  The last bit is the sign, and there are
no positions from 64 on: to shift that far is an overflow, for which a power of two stands here. -/
def bit (position : Nat) : Int :=
  if position = 63 then -int64Bound else Int.ofNat (1 <<< position)

/-- Whether a signed 64-bit integer has exactly one bit set. -/
def isBit (n : Int) : Bool :=
  (List.range 64).any fun position => n = bit position

/-- The first value that extensions may add to an enumeration. -/
def extensionBase : Int := 1000000000

/-- The number of values that are reserved for an extension. -/
def extensionBlock : Int := 1000

/-- The value at a place of the block of the extension with the given number.  It has 64 bits as long
as the number and the offset are small against `int64Bound / extensionBlock`, as those of a registry
are; beyond that the arithmetic of the machine would overflow. -/
def extensionValue (number offset : Int) (positive : Bool) : Int :=
  let value := extensionBase + extensionBlock * (number - 1) + offset
  if positive then value else -value

end ApiStencil.Number
