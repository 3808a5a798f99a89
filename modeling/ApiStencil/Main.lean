/-
ApiStencil/Main.lean

The command line of the generator.  What stands on the disk where a run looks is
copied to a tree of files, the run is made on the tree, and the files that it has
written are copied back.
-/
import ApiStencil.Document.Markup
import ApiStencil.Generator.Run

namespace ApiStencil.Generator

/-- The options as they are shown. -/
def usage : String :=
  unlines
    ["Usage: autogen [OPTIONS] [TARGETS]...",
      "",
      "  --registry <REGISTRY>  Directory holding vk.xml and video.xml",
      "  --output <OUTPUT>      Directory the generated files are written to",
      "  --verify               Compare the generated files with the ones on disk",
      "  --incremental          Only write the files whose content changed",
      "  --no-format            Don't run clang-format over the generated files",
      "  -h, --help             Print help",
      "  -V, --version          Print version"]

/-- A path as the disk knows it. -/
def diskPath (path : Path) : String :=
  "/" ++ String.intercalate "/" path

/-- Copies the file or the directory at a path from the disk to a tree. -/
def copyIn (t : FileTree String) (path : Path) : IO (FileTree String) := do
  let place := (← IO.currentDir) / diskPath path
  if ← place.isDir then
    return (t.makeDirectories path).toOption.getD t
  else if ← place.pathExists then
    let content ← IO.FS.readFile place
    return (t.write content path).toOption.getD t
  else return t

/-- Copies what stands on the way to a route's end, from the root down, from the disk to a tree. -/
def copyWay (t : FileTree String) (route : Route) : IO (FileTree String) :=
  (List.range (route.names.length + 1)).foldlM (fun t n =>
    match Path.resolve t (route.names.take n) with
    | .ok place => copyIn t place
    | .error _ => return t) t

/-- The paths at which a run looks. -/
def pathsOf (request : Request) : List String :=
  [DocumentName.api, .video].map (documentPath request) ++
    Target.all.map (outputPath request)

/-- The environment variable that names the directory for temporary files. -/
def temporaryName : String := "TMPDIR"

/-- Copies the directories that a run has made and the files that it has written from its tree to
the disk. -/
def copyOut (directory : Path) (request : Request) (s : State) : IO Unit := do
  let root ← IO.currentDir
  for (path, content) in s.files.files do
    if content.isNone then IO.FS.createDirAll (root / ("/" ++ path))
  for event in s.log do
    if let .written name := event then
      let route := Route.ofString directory (Path.join request.output name)
      if let .ok path := Path.resolve s.files route.names then
        if let .ok content := s.files.read path then
          IO.FS.createDirAll (root / diskPath path.dropLast)
          IO.FS.writeFile (root / diskPath path) content

/-- Runs the generator on the disk.  No formatter is called, so texts stay as they are expanded. -/
def runOnDisk (request : Request) : IO UInt32 := do
  let directory := (Route.ofString [] (← IO.currentDir).toString).names
  let temporary ← IO.getEnv temporaryName
  let files ← (temporary.toList ++ pathsOf request).foldlM
    (fun t path => copyWay t (Route.ofString directory path)) FileTree.empty
  let around : Surroundings :=
    ⟨Document.ofText, fun _ _ => .unavailable FileError.notFound.message, directory, temporary⟩
  let s := run around request files
  copyOut directory request s
  for line in logLines s.log do
    IO.eprintln line
  for difference in s.printed do
    IO.print difference
  return if s.success then 0 else 1

end ApiStencil.Generator

open ApiStencil.Generator in
def main (arguments : List String) : IO UInt32 := do
  let names := [CommandLine.Setting.registry, .output].map CommandLine.Setting.environmentName
  let values ← names.mapM fun name => return (name, ← IO.getEnv name)
  match CommandLine.read (fun name => (values.lookup name).join) arguments with
  | .run request => runOnDisk request
  | .help => IO.print usage; return 0
  | .version => IO.print version; return 0
  | .misuse => IO.eprint usage; return 2
