/-
ApiStencil/Cache.lean

A snapshot of the last registry that was built, kept in a file.  It is used again
for the same source with the same time of modification and a configuration that
agrees.  A cache that cannot be read or written costs time and nothing else:
`load` succeeds exactly when building the registry does, or a snapshot fits.
-/
import ApiStencil.Config
import ApiStencil.Error
import ApiStencil.FileTree.Route
import ApiStencil.Registry.Build

namespace ApiStencil.Cache

/-- A registry with what it was built from. -/
structure Snapshot where
  /-- The names and double dots that lead to the source. -/
  source : List String
  modified : Option Int
  config : Config
  registry : Registry

/-- The file of a registry document, with what reading the document gives. -/
structure Source where
  document : Except Registry.Error Document
  modified : Option Int

/-- What a file holds as far as a cache is concerned. -/
inductive Stored where
  | source (s : Source)
  | snapshot (s : Snapshot)
  | other

/-- Why a cache file is of no use. -/
inductive Trouble where
  | inaccessible (e : FileError)
  /-- What the file holds, or would have to hold, is no snapshot. -/
  | invalid
deriving DecidableEq, Repr

def Trouble.message : Trouble → String
  | .inaccessible e => (Error.cache e).message
  | .invalid => "failed to (de)serialize the cached registry"

/-- The snapshot in a file, if there is a file. -/
def readSnapshot (file : Route) (t : FileTree Stored) : Except Trouble (Option Snapshot) :=
  match file.read t with
  | .ok (.snapshot s) => .ok (some s)
  | .ok _ | .error .isDirectory => .error .invalid
  | .error .notFound => .ok none
  | .error e => .error (.inaccessible e)

/-- Puts a snapshot into a file.  A time before the epoch has no written form, so a snapshot with
such a time leaves a file that cannot be read. -/
def writeSnapshot (file : Route) (s : Snapshot) (t : FileTree Stored) :
    Except Trouble Unit × FileTree Stored :=
  let early := s.modified.any (· < 0)
  match file.write (if early then .other else .snapshot s) t with
  | .ok t => (if early then .error .invalid else .ok (), t)
  | .error e => (.error (.inaccessible e), t)

/-- Whether a snapshot was built from this source with this configuration. -/
def Snapshot.fits (s : Snapshot) (source : List String) (modified : Option Int)
    (config : Config) : Bool :=
  s.source == source && s.modified == modified && s.config.agrees config

/-- The registry of a source, and how the cache served it. -/
structure Loaded where
  registry : Registry
  fromCache : Bool
  /-- Why no snapshot of the registry could be kept. -/
  unsaved : Option Trouble

/-- Builds the registry of a source. -/
def Source.build (source : Source) (config : Config) : Except Registry.Error Registry := do
  Registry.build config (← source.document)

/-- Loads the registry of a source through a cache file.  `origin` is the way to the source: an
ending that marks a directory makes no other source of it, but may keep it from being read. -/
def load (file : Route) (origin : List String) (source : Source) (config : Config)
    (t : FileTree Stored) : Except Registry.Error Loaded × FileTree Stored :=
  let found := (readSnapshot file t).toOption.join
  match found.filter (·.fits origin source.modified config) with
  | some s => (.ok ⟨s.registry, true, none⟩, t)
  | none =>
    match source.build config with
    | .error e => (.error e, t)
    | .ok registry =>
      match writeSnapshot file ⟨origin, source.modified, config, registry⟩ t with
      | (.ok (), t) => (.ok ⟨registry, false, none⟩, t)
      | (.error e, t) => (.ok ⟨registry, false, some e⟩, t)

/-- Removes the cache file, if there is one. -/
def clear (file : Route) (t : FileTree Stored) : Except FileError Unit × FileTree Stored :=
  match file.remove t with
  | .ok t => (.ok (), t)
  | .error .notFound => (.ok (), t)
  | .error e => (.error e, t)

/-- The source at a route's end.  A directory and a file that is no source have no root.

They come without a time of modification.  None is missed: what cannot be read is never kept in a
snapshot, and the time of a directory could only be that of a snapshot if a source had stood in its
place that was modified at the very same time, which is the one place with two contents at one time
that no use of times can tell apart. -/
def sourceAt (t : FileTree Stored) (route : Route) : Source :=
  match route.lookup t with
  | .ok (.file (.source s)) => s
  | .ok _ => ⟨.error .missingRoot, none⟩
  | .error _ => ⟨.error .unreadable, none⟩

end ApiStencil.Cache
