/-
ApiStencil/FileTree.lean

A tree of directories and files.  What the files hold is left open.  A path is a
list of names, from the root of the tree down.
-/
import ApiStencil.Text.Search

namespace ApiStencil

/-- Why a file cannot be used as asked. -/
inductive FileError where
  /-- A directory stands where a file is needed. -/
  | isDirectory
  /-- A file stands where a directory is needed. -/
  | notDirectory
  /-- There is nothing at the path. -/
  | notFound
  /-- A file stands where a directory was to be made. -/
  | alreadyExists
  /-- A name, or the path as a whole, is longer than the system allows. -/
  | nameTooLong
  /-- The path holds a character that no path can hold. -/
  | invalidPath
deriving DecidableEq, Repr

/-- What the system says about the error. -/
def FileError.message : FileError → String
  | .isDirectory => "Is a directory (os error 21)"
  | .notDirectory => "Not a directory (os error 20)"
  | .notFound => "No such file or directory (os error 2)"
  | .alreadyExists => "File exists (os error 17)"
  | .nameTooLong => "File name too long (os error 36)"
  | .invalidPath => "file name contained an unexpected NUL byte"

universe u

/-- A file, or a directory with its entries. -/
inductive FileTree (α : Type u) where
  | file (content : α)
  | directory (entries : List (String × FileTree α))

/-- The names on the way from the root to a file or directory. -/
abbrev Path := List String

namespace FileTree

variable {α : Type u}

/-- The empty directory. -/
def empty : FileTree α := .directory []

/-- The entry with this name. -/
def child? (name : String) : List (String × FileTree α) → Option (FileTree α)
  | [] => none
  | (n, t) :: r => if n = name then some t else child? name r

/-- Replaces the entry with this name, or adds it. -/
def setChild (name : String) (tree : FileTree α) :
    List (String × FileTree α) → List (String × FileTree α)
  | [] => [(name, tree)]
  | (n, t) :: r => if n = name then (n, tree) :: r else (n, t) :: setChild name tree r

/-- What stands at a path. -/
def lookup : FileTree α → Path → Except FileError (FileTree α)
  | t, [] => .ok t
  | .file _, _ :: _ => .error .notDirectory
  | .directory entries, name :: rest =>
    match child? name entries with
    | none => .error .notFound
    | some t => t.lookup rest

/-- The content of a file. -/
def content : FileTree α → Except FileError α
  | .file content => .ok content
  | .directory _ => .error .isDirectory

/-- The content of the file at a path. -/
def read (t : FileTree α) (path : Path) : Except FileError α := do
  (← t.lookup path).content

/-- Writes the file at a path, whose directory has to exist. -/
def write (content : α) : FileTree α → Path → Except FileError (FileTree α)
  | .file _, [] => .ok (.file content)
  | .directory _, [] => .error .isDirectory
  | .file _, _ :: _ => .error .notDirectory
  | .directory entries, name :: rest =>
    match child? name entries with
    | some t => do return .directory (setChild name (← write content t rest) entries)
    | none =>
      if rest = [] then .ok (.directory (setChild name (.file content) entries))
      else .error .notFound

/-- Makes the directory at a path and those above it, where they are missing. -/
def makeDirectories : FileTree α → Path → Except FileError (FileTree α)
  | .directory entries, [] => .ok (.directory entries)
  | .file _, _ => .error .alreadyExists
  | .directory entries, name :: rest => do
    let below := (child? name entries).getD empty
    return .directory (setChild name (← makeDirectories below rest) entries)

/-- Removes the file at a path. -/
def remove : FileTree α → Path → Except FileError (FileTree α)
  | .file _, _ => .error .notDirectory
  | .directory _, [] => .error .isDirectory
  | .directory entries, name :: rest =>
    match child? name entries with
    | none => .error .notFound
    | some (.file _) =>
      if rest = [] then .ok (.directory (entries.filter (·.1 ≠ name)))
      else .error .notDirectory
    | some t => do return .directory (setChild name (← remove t rest) entries)

/-! ### Listing -/

mutual
/-- The files below a tree at the path `above`, and the directories that are empty, in the order
of their names. -/
def listing (above : String) : FileTree α → List (String × Option α)
  | .file content => [(above, some content)]
  | .directory [] => [(above, none)]
  | .directory (e :: r) =>
    ((entryListings above (e :: r)).mergeSort fun a b => a.1 ≤ b.1).flatMap Prod.snd

/-- The listings of the entries of a directory, under their names. -/
def entryListings (above : String) :
    List (String × FileTree α) → List (String × List (String × Option α))
  | [] => []
  | (name, t) :: r => (name, listing (above ++ "/" ++ name) t) :: entryListings above r
end

/-- The files of a tree and its empty directories, without the root. -/
def files : FileTree α → List (String × Option α)
  | .file _ => []
  | .directory entries =>
    let listings := entries.map fun (name, t) => (name, t.listing name)
    (listings.mergeSort fun a b => a.1 ≤ b.1).flatMap Prod.snd

end FileTree

end ApiStencil
