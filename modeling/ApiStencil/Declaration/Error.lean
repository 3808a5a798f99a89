/-
ApiStencil/Declaration/Error.lean

What can be wrong with a declaration, and what is odd about one but accepted.
-/

namespace ApiStencil.Declaration

/-- Why a declaration has no variable. -/
inductive Error where
  /-- The declaration marks no name. -/
  | missingName (code : String)
  /-- The declaration marks no type. -/
  | missingType (name : String)
  /-- A length in mathematical notation that is no division of two operands. -/
  | unsupportedLatexmath (text : String)
  /-- A type that is always used behind a pointer, declared without one. -/
  | negativePointerLevel (declaration : String)
deriving DecidableEq, Repr

def Error.message : Error → String
  | .missingName code => "declaration `" ++ code ++ "` has no name"
  | .missingType name => "declaration `" ++ name ++ "` has no type"
  | .unsupportedLatexmath text => "unsupported latexmath length expression `" ++ text ++ "`"
  | .negativePointerLevel declaration =>
    "declaration `" ++ declaration ++ "` has a negative pointer level after adjustment"

/-- A declaration with several lengths, of which the first is used. -/
structure Notice where
  name : String
  len : String
  used : String
deriving DecidableEq, Repr

def Notice.message (n : Notice) : String :=
  "`" ++ n.name ++ "` has a multi-dimensional len `" ++ n.len ++ "`, only `" ++ n.used ++
    "` is used"

end ApiStencil.Declaration
