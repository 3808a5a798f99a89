/-
ApiStencil/Text/Numeral.lean

Integers as text.  `readInt?` reads digits of a base with an optional sign into the
range of 64-bit integers; a text outside that range is no number.
-/

namespace ApiStencil.Text

/-- The value of a digit, of either case, in bases up to sixteen. -/
def digitValue? (c : Char) : Option Nat :=
  if c.isDigit then some (c.toNat - 0x30)
  else if 'a' ≤ c ∧ c ≤ 'f' then some (c.toNat - 0x61 + 10)
  else if 'A' ≤ c ∧ c ≤ 'F' then some (c.toNat - 0x41 + 10)
  else none

/-- The number written by a run of digits of the given base, read on from `acc`. -/
def readDigits? (base acc : Nat) : List Char → Option Nat
  | [] => some acc
  | c :: r =>
    match digitValue? c with
    | some d => if d < base then readDigits? base (acc * base + d) r else none
    | none => none

/-- The number written by a non-empty run of digits. -/
def readNat? (base : Nat) (s : List Char) : Option Nat :=
  if s = [] then none else readDigits? base 0 s

/-- The number of signed 64-bit integers that are not negative. -/
def int64Bound : Int := 9223372036854775808

/-- Whether `n` is a signed 64-bit integer. -/
def fitsInt64 (n : Int) : Bool :=
  -int64Bound ≤ n && n < int64Bound

/-- The signed 64-bit integer written by digits of the given base after an optional sign. -/
def readInt? (base : Nat) (s : List Char) : Option Int :=
  let value : Option Int :=
    match s with
    | '-' :: digits => (readNat? base digits).map fun n => -(n : Int)
    | '+' :: digits => (readNat? base digits).map fun n => (n : Int)
    | digits => (readNat? base digits).map fun n => (n : Int)
  value.filter fitsInt64

end ApiStencil.Text
