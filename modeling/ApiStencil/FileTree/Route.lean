/-
ApiStencil/FileTree/Route.lean

Paths as they are written.  Two dots in them lead back out of a directory, which has
to exist, so what a written path means depends on the tree; without such dots and
without names that are too long `resolve` changes nothing.  A path that ends with a
slash or a single dot can only mean a directory.

The paths are those that a command line can give, which are not empty.
-/
import ApiStencil.FileTree

namespace ApiStencil

variable {α : Type}

namespace Path

/-- Whether a name is longer than a directory can hold. -/
def isLong (name : String) : Bool :=
  255 < name.utf8ByteSize

/-- Goes through names and double dots from the directory whose path is the reverse of `above`.
Above the root there is the root again.  A name that is too long is noticed in the directory where
it is looked for. -/
def resolveFrom (t : FileTree α) (above : Path) : List String → Except FileError Path
  | [] => .ok above.reverse
  | name :: rest =>
    if name = ".." then
      match above, t.lookup above.reverse with
      | [], _ => resolveFrom t [] rest
      | _ :: outer, .ok (.directory _) => resolveFrom t outer rest
      | _ :: _, .ok (.file _) => .error .notDirectory
      | _ :: _, .error e => .error e
    else if isLong name then
      match t.lookup above.reverse with
      | .ok (.directory _) => .error .nameTooLong
      | .ok (.file _) => .error .notDirectory
      | .error e => .error e
    else resolveFrom t (name :: above) rest

/-- The path to which names and double dots lead from the root. -/
def resolve (t : FileTree α) (names : List String) : Except FileError Path :=
  resolveFrom t [] names

/-- Makes every directory that names and double dots go through, also those that they leave again.
What was made before an error stays. -/
def makeThrough (t : FileTree α) (above : Path) :
    List String → Except FileError Unit × FileTree α
  | [] => (.ok (), t)
  | name :: rest =>
    if name = ".." then makeThrough t above.tail rest
    else if isLong name then (.error .nameTooLong, t)
    else match t.makeDirectories (name :: above).reverse with
      | .ok t => makeThrough t (name :: above) rest
      | .error e => (.error e, t)

/-- A path seen from a directory, as it is written. -/
def join (directory path : String) : String :=
  if directory = "" ∨ path.toList.head? = some '/' then path
  else if directory.toList.getLast? = some '/' then directory ++ path
  else directory ++ "/" ++ path

end Path

/-- What stands at the end of a written path. -/
inductive Ending where
  /-- A name or two dots. -/
  | name
  /-- A slash. -/
  | slash
  /-- A single dot. -/
  | dot
deriving DecidableEq, Repr

/-- A path as it is written. -/
structure Route where
  /-- The names and double dots from the root on. -/
  names : List String
  ending : Ending
  /-- Why no system takes the path, whatever stands in the tree. -/
  fault : Option FileError
deriving DecidableEq, Repr

namespace Route

/-- The route that leads to a path. -/
def ofPath (path : Path) : Route := ⟨path, .name, none⟩

/-- Why no system takes a path that is written like this.  An empty path is not looked at here: see
`ofString`. -/
def fault? (s : String) : Option FileError :=
  if '\x00' ∈ s.toList then some .invalidPath
  else if 4095 < s.utf8ByteSize then some .nameTooLong
  else none

/-- The names and dots of a written path; empty names count for nothing. -/
def segments (s : String) : List String :=
  ((s.toList.splitOn '/').filter (· ≠ [])).map String.ofList

/-- Reads a path, which starts at `directory` unless it has a slash in front.

The empty path comes out as the way to `directory` itself, as a dot would.  A system finds nothing
there instead, but is never asked: no option gives an empty path to a run
(`CommandLine.paths_of_read`), and to a directory for temporary files, which may have one, a name is
joined before anything is looked for. -/
def ofString (directory : Path) (s : String) : Route where
  names :=
    (if s.toList.head? = some '/' then [] else directory) ++ (segments s).filter (· ≠ ".")
  ending :=
    if (segments s).getLast? = some "." then .dot
    else if s.toList.getLast? = some '/' then .slash
    else .name
  fault := fault? s

/-- The path to which a route leads. -/
def resolve (r : Route) (t : FileTree α) : Except FileError Path :=
  match r.fault with
  | some e => .error e
  | none => Path.resolve t r.names

/-- What stands at a route's end. -/
def lookup (r : Route) (t : FileTree α) : Except FileError (FileTree α) := do
  match ← t.lookup (← r.resolve t), r.ending with
  | .file content, .name => return .file content
  | .file _, _ => throw .notDirectory
  | .directory entries, _ => return .directory entries

/-- The content of the file at a route's end. -/
def read (r : Route) (t : FileTree α) : Except FileError α := do
  (← r.lookup t).content

/-- The route without its last name. -/
def above (r : Route) : Route := ⟨r.names.dropLast, .name, r.fault⟩

/-- Why a path that ends like a directory's cannot be a file's, by what stands at `path`. -/
def refusal (t : FileTree α) (path : Path) : FileError :=
  match t.lookup path with
  | .ok (.directory _) => .isDirectory
  | .ok (.file _) => .notDirectory
  | .error e => e

/-- Writes the file at a route's end, whose directory has to exist. -/
def write (r : Route) (content : α) (t : FileTree α) : Except FileError (FileTree α) := do
  match r.ending with
  | .name => t.write content (← r.resolve t)
  | .slash => throw (refusal t (← r.above.resolve t))
  | .dot => throw (refusal t (← r.resolve t))

/-- Makes the directories on the way to a route's end and writes the file there.  What was made
before an error stays. -/
def put (r : Route) (content : α) (t : FileTree α) : Except FileError Unit × FileTree α :=
  match r.fault, Path.makeThrough t [] r.names.dropLast with
  | some e, _ => (.error e, t)
  | none, (.error e, t) => (.error e, t)
  | none, (.ok (), t) =>
    match r.write content t with
    | .ok t => (.ok (), t)
    | .error e => (.error e, t)

/-- Makes the directory at a route's end and those on the way to it.  The directory in front of a
single dot is not made. -/
def makeDirectory (r : Route) (t : FileTree α) : Except FileError Unit × FileTree α :=
  match r.fault with
  | some e => (.error e, t)
  | none =>
    if r.ending = .dot then
      match Path.makeThrough t [] r.names.dropLast with
      | (.error e, t) => (.error e, t)
      | (.ok (), t) => ((r.lookup t).map fun _ => (), t)
    else Path.makeThrough t [] r.names

/-- Removes the file at a route's end. -/
def remove (r : Route) (t : FileTree α) : Except FileError (FileTree α) := do
  let path ← r.resolve t
  match r.ending with
  | .name => t.remove path
  | _ => throw (refusal t path)

end Route

end ApiStencil
