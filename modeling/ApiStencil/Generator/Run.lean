/-
ApiStencil/Generator/Run.lean

A run of the generator.  The requested targets are grouped by document, a document
is resolved once, and every target is expanded, formatted and written.  A target
that fails fails the run, but not the targets beside it; a document that is
missing or cannot be resolved ends the run.
-/
import ApiStencil.Cache
import ApiStencil.Generator.CommandLine
import ApiStencil.Generator.Target
import ApiStencil.Output.Write
import ApiStencil.Template.Expand
import ApiStencil.Text.Printable

namespace ApiStencil.Generator

open Output

/-! ### Formatting -/

/-- What the formatter makes of a text. -/
inductive Formatted where
  | text (s : String)
  /-- There is no formatter; with what the system says. -/
  | unavailable (reason : String)
  /-- The formatter refuses the text; with what it says. -/
  | refused (reason : String)
  /-- The output of the formatter is no text. -/
  | notText

/-- A formatter, which is given the name of the file and its text. -/
abbrev Formatter := String → String → Formatted

/-! ### Events -/

/-- Why a run ends early. -/
inductive Abort where
  | unknownTarget (name : String)
  | missingDocument (path : String)
  | unresolved (path : String) (e : Registry.Error)
deriving DecidableEq, Repr

/-- Why a target cannot be generated. -/
inductive TargetError where
  | template (e : Template.Error)
  | file (e : FileError)
deriving DecidableEq, Repr

/-- The sizes of a registry. -/
structure Counts where
  functions : Nat
  structs : Nat
  unions : Nat
  enums : Nat
  bitmasks : Nat
  handles : Nat
  extensions : Nat
  systemTypes : Nat
deriving DecidableEq, Repr

/-- What a run reports while it goes on. -/
inductive Event where
  | loading (path : String)
  | notice (n : Declaration.Notice)
  | resolved (c : Counts)
  | cached (path : String)
  | unreadableCache (e : Cache.Trouble)
  | unsavedCache (e : Cache.Trouble)
  | noFormatter (reason : String)
  | refused (target reason : String)
  | notText (target : String)
  | written (target : String)
  | upToDate (target : String)
  | outOfDate (target : String)
  | failed (target : String) (e : TargetError)
  | aborted (a : Abort)
deriving DecidableEq, Repr

/-- How serious events are. -/
inductive Level where
  | info
  | warning
  | error
deriving DecidableEq, Repr

def Level.name : Level → String
  | .info => "INFO"
  | .warning => "WARN"
  | .error => "ERROR"

def Abort.message : Abort → String
  | .unknownTarget name =>
    "unknown target `" ++ name ++ "`, expected one of: " ++
      String.intercalate ", " (Target.all.map Target.name)
  | .missingDocument path => "registry file " ++ path ++ " does not exist"
  | .unresolved path e => "failed to load " ++ path ++ ": " ++ e.message

def TargetError.message : TargetError → String
  | .template e => "template error at " ++ e.message
  | .file e => e.message

/-- The sizes of the collections that a run reports. -/
def Counts.ofRegistry (r : Registry) : Counts where
  functions := r.functions.size
  structs := r.structs.size
  unions := r.unions.size
  enums := r.enums.size
  bitmasks := r.bitmasks.size
  handles := r.handles.size
  extensions := r.extensions.size
  systemTypes := r.systemTypes.length

def Counts.message (c : Counts) : String :=
  let counted (n : Nat) (what : String) : String := toString n ++ " " ++ what
  String.intercalate ", "
    [counted c.functions "functions", counted c.structs "structs", counted c.unions "unions",
      counted c.enums "enums", counted c.bitmasks "bitmasks", counted c.handles "handles",
      counted c.extensions "extensions", counted c.systemTypes "system types"]

namespace Event

/-- How serious an event is. A formatter that fails is a warning only. -/
def level : Event → Level
  | .notice _ | .unreadableCache _ | .unsavedCache _ | .noFormatter _ | .refused _ _
  | .notText _ => .warning
  | .outOfDate _ | .failed _ _ | .aborted _ => .error
  | _ => .info

def message : Event → String
  | .loading path => "loading registry from " ++ path
  | .notice n => n.message
  | .resolved c => "registry: " ++ c.message
  | .cached path => "using cached registry for " ++ path
  | .unreadableCache e => "ignoring unreadable registry cache: " ++ e.message
  | .unsavedCache e => "failed to write the registry cache: " ++ e.message
  | .noFormatter reason =>
    "failed to run clang-format, output will not be formatted: " ++ reason
  | .refused target reason => "clang-format failed on " ++ target ++ ": " ++ reason
  | .notText target => "clang-format produced invalid UTF-8 for " ++ target
  | .written target => "wrote " ++ target
  | .upToDate target => target ++ " is up to date"
  | .outOfDate target => target ++ " is out of date"
  | .failed target e => "failed to generate " ++ target ++ ": " ++ e.message
  | .aborted a => a.message

/-- The entry in a log for an event.  Line breaks in the message are followed by four blanks. -/
def entry (e : Event) : List Char :=
  let message := e.message.toList.flatMap fun c => if c = '\n' then "\n    ".toList else [c]
  Text.printable (e.level.name.toList ++ ' ' :: message ++ ['\n'])

end Event

/-- The lines of a log of events. -/
def logLines (log : List Event) : List String :=
  (Text.lines (log.flatMap Event.entry)).map String.ofList

/-! ### Generating targets -/

/-- What a run finds and what it can use. -/
structure Surroundings where
  /-- How the text of a document is read. -/
  readDocument : String → Except Registry.Error Document
  format : Formatter
  /-- The directory at which paths start. -/
  directory : Path
  /-- The path of the directory for temporary files, unless it is sure to be there. -/
  temporary : Option String

/-- The files, and what has happened to them so far. -/
structure State where
  files : FileTree String
  /-- The directory of the cache. -/
  cache : FileTree Cache.Stored
  log : List Event
  /-- The differences that were printed. -/
  printed : List String
  /-- Whether the formatter is known to be missing. -/
  formatterMissing : Bool
  success : Bool

namespace State

def report (s : State) (events : List Event) : State :=
  { s with log := s.log ++ events }

end State

/-- The text of a target before it is formatted. -/
def content (target : Target) (r : Registry) : Except Template.Error String := do
  let expanded ← Template.expand r target.template.toList
  return withHeader target.document.fileName (String.ofList expanded)

/-- The formatted text, or the text itself if it cannot be formatted, with the warnings about
that.  That there is no formatter is warned about once. -/
def formatted (format : Formatter) (missing : Bool) (target text : String) :
    String × List Event :=
  if missing then (text, [])
  else match format target text with
    | .text s => (s, [])
    | .unavailable reason => (text, [.noFormatter reason])
    | .refused reason =>
      (text, [.refused target (String.ofList (Text.trim reason.toList))])
    | .notText => (text, [.notText target])

/-- The path of a target's file as it is shown. -/
def outputPath (request : Request) (target : Target) : String :=
  Path.join request.output target.name

/-- Generates one target.  Returns its outcome and the state after it, without a report of the
outcome. -/
def generate (around : Surroundings) (request : Request) (r : Registry) (target : Target)
    (s : State) : Except TargetError Outcome × State :=
  match content target r with
  | .error e => (.error (.template e), s)
  | .ok text =>
    let (text, warnings) :=
      if request.format then formatted around.format s.formatterMissing target.name text
      else (text, [])
    let missing := warnings.any fun
      | .noFormatter _ => true
      | _ => false
    let s := { s.report warnings with formatterMissing := s.formatterMissing || missing }
    let (outcome, files) :=
      update s.files around.directory (outputPath request target) text request.mode
    (outcome.mapError .file, { s with files := files })

/-- Reports the outcome of a target. -/
def conclude (s : State) (target : Target) (outcome : Except TargetError Outcome) : State :=
  match outcome with
  | .ok .written => s.report [.written target.name]
  | .ok .unchanged => s.report [.upToDate target.name]
  | .ok (.mismatch difference) =>
    { s.report [.outOfDate target.name] with
      success := false
      printed := s.printed ++
        ["--- " ++ target.name ++ "\n+++ " ++ target.name ++ " (generated)\n" ++ difference] }
  | .error e => { s.report [.failed target.name e] with success := false }

/-- Generates targets one after the other, and then reports their outcomes.

They may as well be generated at the same time.  Each writes a file of its own and reads no other
target's, so in whatever order it is done, every target comes to the same and leaves the same file
(`generateAll_perm`: for targets with different names, and where the path of the output directory
does not lead back out of a directory that only writing makes).  A target that is named twice gets
the same text twice.  The reports are in the order of the list either way. -/
def generateAll (around : Surroundings) (request : Request) (jobs : List (Target × Registry))
    (s : State) : State :=
  let (outcomes, s) := jobs.foldl (fun (outcomes, s) (target, r) =>
    let (outcome, s) := generate around request r target s
    (outcomes ++ [(target, outcome)], s)) (([] : List (Target × Except TargetError Outcome)), s)
  outcomes.foldl (fun s (target, outcome) => conclude s target outcome) s

/-! ### Loading documents -/

/-- The cache file in its directory. -/
def cacheFile : Route := Route.ofPath ["registry"]

/-- The cache file, as far as the directory for temporary files lets it be reached. -/
def reachableCache (around : Surroundings) (files : FileTree String) : Route :=
  match around.temporary.map fun path => (Route.ofString around.directory path).lookup files with
  | none | some (.ok (.directory _)) => cacheFile
  | some (.ok (.file _)) => { cacheFile with fault := some .notDirectory }
  | some (.error e) => { cacheFile with fault := some e }

/-- The path of a document as it is shown. -/
def documentPath (request : Request) (document : DocumentName) : String :=
  Path.join request.registry document.fileName

/-- The text of a document, if its file is there. -/
def documentText? (around : Surroundings) (request : Request) (document : DocumentName)
    (files : FileTree String) : Option String :=
  ((Route.ofString around.directory (documentPath request document)).read files).toOption

/-- The source that the text of a document makes. -/
def sourceOf (around : Surroundings) (text : String) : Cache.Source :=
  ⟨around.readDocument text, none⟩

/-- What is reported about loading a source.  `found` is what the cache file holds before. -/
def loadEvents (path : String) (source : Cache.Source)
    (found : Except Cache.Trouble (Option Cache.Snapshot))
    (loaded : Except Registry.Error Cache.Loaded) : List Event :=
  let unreadable := match found with
    | .ok _ => []
    | .error e => [Event.unreadableCache e]
  let notices := match source.document with
    | .ok doc => (Registry.notices config doc).map Event.notice
    | .error _ => []
  match loaded with
  | .ok ⟨_, true, _⟩ => [.cached path]
  | .ok ⟨r, false, unsaved⟩ =>
    unreadable ++ .loading path :: notices ++ [.resolved (Counts.ofRegistry r)] ++
      (unsaved.map Event.unsavedCache).toList
  | .error _ => unreadable ++ .loading path :: notices

/-- Loads the registry for each of some targets of the same document. -/
def loadAll (around : Surroundings) (path : String) (source : Cache.Source)
    (targets : List Target) (s : State) :
    Except Registry.Error (List (Target × Registry)) × State :=
  match targets with
  | [] => (.ok [], s)
  | target :: rest =>
    let origin := (Route.ofString around.directory path).names
    let file := reachableCache around s.files
    let found := Cache.readSnapshot file s.cache
    let (loaded, cache) := Cache.load file origin source config s.cache
    let s := { s.report (loadEvents path source found loaded) with cache := cache }
    match loaded with
    | .error e => (.error e, s)
    | .ok l =>
      let (jobs, s) := loadAll around path source rest s
      (jobs.map ((target, l.registry) :: ·), s)

/-! ### Runs -/

/-- Ends a run. -/
def abort (s : State) (a : Abort) : State :=
  { s.report [.aborted a] with success := false }

/-- The targets with these names, or the first name that is no target's. -/
def findTargets (names : List String) : Except String (List Target) :=
  if names = [] then .ok Target.all
  else names.mapM fun name =>
    match Target.find? name with
    | some target => .ok target
    | none => .error name

/-- The documents that targets need, each with its targets. -/
def byDocument (targets : List Target) : List (DocumentName × List Target) :=
  [DocumentName.api, .video].filterMap fun document =>
    match targets.filter (·.document = document) with
    | [] => none
    | l => some (document, l)

/-- Generates the targets of some documents, until a document ends the run. -/
def runDocuments (around : Surroundings) (request : Request) :
    List (DocumentName × List Target) → State → State
  | [], s => s
  | (document, targets) :: rest, s =>
    let path := documentPath request document
    match documentText? around request document s.files with
    | none => abort s (.missingDocument path)
    | some text =>
      match loadAll around path (sourceOf around text) targets s with
      | (.error e, s) => abort s (.unresolved path e)
      | (.ok jobs, s) => runDocuments around request rest (generateAll around request jobs s)

/-- Runs the generator in a tree of files. -/
def run (around : Surroundings) (request : Request) (files : FileTree String) : State :=
  let s : State := ⟨files, .empty, [], [], false, true⟩
  let s :=
    match findTargets request.targets with
    | .error name => abort s (.unknownTarget name)
    | .ok targets => runDocuments around request (byDocument targets) s
  { s with cache := (Cache.clear cacheFile s.cache).2 }

end ApiStencil.Generator
