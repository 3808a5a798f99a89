/-
ApiStencil/Template/Error.lean

What can be wrong with a template: the first five errors are found when it is
read, the last three when it is expanded.  Lines count from one.
-/
import ApiStencil.Condition.Basic
import ApiStencil.Placeholder.Substitute
import ApiStencil.Template.Directive
import ApiStencil.Template.Subject

namespace ApiStencil.Template

/-- Why a template cannot be read or expanded. -/
inductive Error where
  /-- A keyword that no directive follows. -/
  | malformed (keyword : Keyword) (line : Nat)
  /-- A loop over something that is no collection. -/
  | unknownSubject (name : String) (line : Nat)
  /-- The end of another directive than the innermost open one. -/
  | mismatchedEnd (expected found : String) (line : Nat)
  /-- The end of a directive where none is open. -/
  | unmatchedEnd (word : String) (line : Nat)
  /-- A directive without an end. -/
  | unclosed (word : String) (line : Nat)
  /-- A loop outside the loop over the owners of its items. -/
  | missingOwner (subject : Subject) (owner : String) (line : Nat)
  /-- A text or a condition whose placeholders cannot be replaced, with the item at hand. -/
  | placeholder (line : Nat) (entity : Option String) (error : Placeholder.Error)
  /-- A condition without a truth value, with the item at hand. -/
  | condition (line : Nat) (entity : Option String) (error : Condition.Error)
deriving DecidableEq, Repr

namespace Error

def atLine (line : Nat) (text : String) : String :=
  "line " ++ toString line ++ ": " ++ text

def whileExpanding (line : Nat) (entity : Option String) (text : String) : String :=
  match entity with
  | some name => "line " ++ toString line ++ ", while expanding `" ++ name ++ "`: " ++ text
  | none => atLine line text

def message : Error → String
  | .malformed keyword line => atLine line ("malformed `" ++ keyword.spelling ++ "` directive")
  | .unknownSubject name line => atLine line ("unknown subject `" ++ name ++ "`")
  | .mismatchedEnd expected found line =>
    atLine line ("expected `@end " ++ expected ++ "`, found `@end " ++ found ++ "`")
  | .unmatchedEnd word line => atLine line ("`@end " ++ word ++ "` without a matching directive")
  | .unclosed word line => atLine line ("`" ++ word ++ "` is never closed")
  | .missingOwner subject owner line =>
    atLine line ("`@foreach " ++ subject.name ++ "` has to be nested in a loop over a " ++ owner)
  | .placeholder line entity error => whileExpanding line entity error.message
  | .condition line entity error => whileExpanding line entity error.message

/-- The messages of the errors that this one was caused by. -/
def causes : Error → List String
  | .placeholder _ _ error => [error.message]
  | .condition _ _ error => [error.message]
  | _ => []

end Error

end ApiStencil.Template
