/-
ApiStencil/Error.lean

The errors of the library as a whole, each with the chain of messages from the
error itself down to its cause.
-/
import ApiStencil.FileTree
import ApiStencil.Registry.Error
import ApiStencil.Template.Error

namespace ApiStencil

/-- Why the library cannot do what it was asked for. -/
inductive Error where
  | registry (e : Registry.Error)
  | template (e : Template.Error)
  /-- The cache file cannot be removed. -/
  | cache (e : FileError)
deriving DecidableEq, Repr

namespace Error

def message : Error → String
  | .registry e => e.message
  | .template e => "template error at " ++ e.message
  | .cache _ => "failed to access the cache file"

/-- The messages of the causes of an error, the nearest one first. -/
def causes : Error → List String
  | .registry e => e.message :: e.causes
  | .template e => e.message :: e.causes
  | .cache e => ["failed to access the cache file", e.message]

end Error

end ApiStencil
