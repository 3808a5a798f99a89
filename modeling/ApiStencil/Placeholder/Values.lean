/-
ApiStencil/Placeholder/Values.lean

The named values that a text can refer to, in the order in which they were given.
-/
import ApiStencil.OrderedMap

namespace ApiStencil

/-- Placeholder names and the texts they stand for. -/
abbrev Values := OrderedMap String

namespace Values

/-- The word for a truth value. -/
def ofBool (b : Bool) : String :=
  if b then "true" else "false"

def ofNat (n : Nat) : String :=
  toString n

def ofInt (n : Int) : String :=
  toString n

/-- The text of a value that may be missing. -/
def ofOption (s : Option String) : String :=
  s.getD ""

end Values

end ApiStencil
