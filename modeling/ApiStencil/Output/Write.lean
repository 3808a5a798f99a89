/-
ApiStencil/Output/Write.lean

Writing generated files, or comparing them with what is there.
-/
import ApiStencil.FileTree.Route
import ApiStencil.Output.LineDiff

namespace ApiStencil.Output

/-- What to do with a generated text. -/
inductive Mode where
  /-- Write the file. -/
  | generate
  /-- Write the file if its content changes. -/
  | incremental
  /-- Write nothing, and compare the text with the file. -/
  | verify
deriving DecidableEq, Repr

/-- What has become of a file. -/
inductive Outcome where
  | written
  | unchanged
  /-- The file does not hold the text; with the difference. -/
  | mismatch (difference : String)
deriving DecidableEq, Repr

/-- The generated text with the header of every generated file. -/
def withHeader (source content : String) : String :=
  "// This file is auto-generated by autogen from " ++ source ++ ".\n" ++
    "// It should not be edited manually. Changes should be made by editing autogen.\n\n" ++
    content

/-- The content of the file at a route's end, if there is one. -/
def existing (t : FileTree String) (r : Route) : Except FileError (Option String) :=
  match r.read t with
  | .ok content => .ok (some content)
  | .error .notFound => .ok none
  | .error e => .error e

/-- Compares a text with the file that should hold it.  `shown` is the path of the file as it is
shown in messages. -/
def compare (shown : String) (old : Option String) (content : String) : Outcome :=
  match old with
  | none => .mismatch (shown ++ " does not exist\n")
  | some old =>
    if old = content then .unchanged
    else .mismatch (String.ofList (lineDiff old.toList content.toList))

/-- Brings the file at a written path, as it is seen from a directory, up to date with a text, as
far as the mode allows. -/
def update (t : FileTree String) (directory : Path) (written content : String) (mode : Mode) :
    Except FileError Outcome × FileTree String :=
  let route := Route.ofString directory written
  match existing t route with
  | .error e => (.error e, t)
  | .ok old =>
    if mode = .verify then (.ok (compare written old content), t)
    else if mode = .incremental ∧ old = some content then (.ok .unchanged, t)
    else match route.put content t with
      | (.ok (), t) => (.ok .written, t)
      | (.error e, t) => (.error e, t)

end ApiStencil.Output
