/-
ApiStencil/Text/Printable.lean

What a log keeps of a text.  Control characters are left out, apart from tabs, line
breaks and page breaks, and so are the escape sequences that tell a terminal what to
do.
-/

namespace ApiStencil.Text

/-- Where a text stands with respect to escape sequences. -/
inductive Escape where
  | outside
  /-- Directly after an escape character. -/
  | introduced
  /-- In a sequence that starts with a blank or a mark, up to its last character. -/
  | marked
  /-- In a control sequence, up to the letter that ends it. -/
  | control
  /-- In a command, which a bell ends. -/
  | command
  /-- At the start of a control string for a device. -/
  | device
  /-- In the numbers at the start of a device string. -/
  | deviceNumbers
  /-- In the blanks and marks at the start of a device string. -/
  | deviceMarks
  /-- In a string, up to its terminator. -/
  | string
deriving DecidableEq, Repr

/-- The control characters that are kept. -/
def isSpacing (c : Char) : Bool :=
  c = '\t' || c = '\n' || c = '\x0c' || c = '\r'

/-- Whether `c` is a control character. -/
def isControl (c : Char) : Bool :=
  c.toNat < 0x20 || c.toNat = 0x7F

/-- Whether `c` is kept outside of escape sequences. -/
def isPrintable (c : Char) : Bool :=
  !isControl c || isSpacing c

/-- Whether the encoding of `c` holds the byte that terminates a string. -/
def hasTerminator (c : Char) : Bool :=
  (String.utf8EncodeChar c).contains 0x9C

namespace Escape

/-- What follows an escape character and `c`. -/
def introduce (c : Char) : Escape :=
  if c = '[' then .control
  else if c = ']' then .command
  else if c = 'P' then .device
  else if c ∈ ['X', '^', '_'] then .string
  else if 0x20 ≤ c.toNat ∧ c.toNat < 0x30 then .marked
  else if 0x30 ≤ c.toNat ∧ c.toNat < 0x7F then .outside
  else .introduced

/-- What follows `c` at the start of a device string. -/
def openDevice (c : Char) : Escape :=
  if 0x20 ≤ c.toNat ∧ c.toNat < 0x30 then .deviceMarks
  else if 0x30 ≤ c.toNat ∧ c.toNat < 0x40 then .deviceNumbers
  else if 0x40 ≤ c.toNat ∧ c.toNat < 0x7F then .string
  else .device

/-- What follows `c` after the numbers of a device string. -/
def numberDevice (c : Char) : Escape :=
  if 0x20 ≤ c.toNat ∧ c.toNat < 0x30 then .deviceMarks
  else if 0x3C ≤ c.toNat ∧ c.toNat < 0x7F then .string
  else .deviceNumbers

/-- What follows a character that is left out. -/
def next (e : Escape) (c : Char) : Escape :=
  if c = '\x1b' then .introduced
  else if c = '\x18' ∨ c = '\x1a' then .outside
  else match e with
    | .outside => .outside
    | .introduced => introduce c
    | .marked => if 0x30 ≤ c.toNat ∧ c.toNat < 0x7F then .outside else .marked
    | .control => if 0x40 ≤ c.toNat ∧ c.toNat < 0x7F then .outside else .control
    | .command => if c = '\x07' then .outside else .command
    | .device => openDevice c
    | .deviceNumbers => numberDevice c
    | .deviceMarks => if 0x30 ≤ c.toNat ∧ c.toNat < 0x7F then .string else .deviceMarks
    | .string => if hasTerminator c then .outside else .string

/-- Whether a character is kept after one that is left out. -/
def keeps (e : Escape) (c : Char) : Bool :=
  match e with
  | .outside => isPrintable c
  | .introduced | .marked | .control => isSpacing c
  | .command | .device | .deviceNumbers | .deviceMarks | .string => false

/-- What follows a character that is kept: spacing only interrupts a sequence, which goes on
at the next control character, and a character outside of ASCII breaks it off. -/
def afterKept (e : Escape) (c : Char) : Escape :=
  if c.toNat < 0x80 then e else .outside

end Escape

/-- What is kept of the text after `e`.  `keeping` says that the character before was kept,
and then all up to the next control character is. -/
def printableFrom (e : Escape) (keeping : Bool) : List Char → List Char
  | [] => []
  | c :: r =>
    if e.keeps c || (keeping && isPrintable c) then c :: printableFrom (e.afterKept c) true r
    else printableFrom (e.next c) false r

/-- What is kept of a text. -/
def printable (text : List Char) : List Char :=
  printableFrom .outside false text

end ApiStencil.Text
