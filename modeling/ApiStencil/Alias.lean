/-
ApiStencil/Alias.lean

Aliases and what they stand for.  A chain of aliases is followed to its end; the
number of aliases bounds the way, so a chain that runs in a circle ends as well.
-/
import ApiStencil.OrderedMap

namespace ApiStencil

/-- Alias names and the names they stand for. -/
abbrev Aliases := OrderedMap String

namespace Aliases

/-- Follows `name` for at most `steps` aliases.  An alias of itself ends the way. -/
def follow (aliases : Aliases) : Nat → String → String
  | 0, name => name
  | steps + 1, name =>
    match aliases.get? name with
    | some target => if target = name then name else follow aliases steps target
    | none => name

/-- The name at the end of the chain of aliases that starts with `name`. -/
def resolve (aliases : Aliases) (name : String) : String :=
  aliases.follow aliases.size name

end Aliases

end ApiStencil
