/-
ApiStencil/Registry/Error.lean

Why a registry document cannot be resolved.
-/
import ApiStencil.Declaration.Error

namespace ApiStencil.Registry

/-- Why a document has no registry. -/
inductive Error where
  /-- The document cannot be read from its file. -/
  | unreadable
  /-- The document has no root element. -/
  | missingRoot
  /-- A declaration of the entity cannot be resolved. -/
  | declaration (entity : String) (error : Declaration.Error)
deriving DecidableEq, Repr

namespace Error

def message : Error → String
  | .unreadable => "failed to parse the registry: unreadable file"
  | .missingRoot => "failed to parse the registry: MissingRegistryElement"
  | .declaration entity error => "in `" ++ entity ++ "`: " ++ error.message

/-- The messages of the errors that this one was caused by. -/
def causes : Error → List String
  | .declaration _ error => [error.message]
  | _ => []

end Error

end ApiStencil.Registry
