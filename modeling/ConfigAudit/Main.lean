import ConfigAudit.CommandLine.Basic
import ConfigAudit.Shell.Basic
import Std.Time.DateTime.Timestamp

/-!
# The program

The files that the words of the command line lead to are read into a file system value; everything
else is decided by `CommandLine.run`, and its report is printed.
-/

namespace ConfigAudit.Program

/-- The failure behind an error of the system. -/
def ioErrorOf : IO.Error → IoError
  | .noFileOrDirectory .. => .notFound
  | .permissionDenied .. => .permissionDenied
  | .inappropriateType .. => .notDirectory
  | _ => .noDevice

/-- What reading a path gives. -/
def readBytes (path : String) : IO (Except IoError (List UInt8)) := do
  try pure (.ok (← IO.FS.readBinFile path).toList)
  catch e => pure (.error (ioErrorOf e))

/-- The file at a path. -/
def readFileNode (path : String) : IO FileNode := do
  match ← readBytes path with
  | .ok content => pure (.file content)
  | .error cause => pure (.closedFile cause)

/-- The directory at a path with everything below it. Links to files count as files; other links
lead nowhere. Entries of other kinds are never read on a walk, and reading them might not end. -/
partial def readDirectoryNode (path : String) : IO FileNode := do
  try
    let place ← IO.FS.realPath path
    let entries ← (← place.readDir).toList.mapM fun entry => do
      let below := Path.join path entry.fileName
      let node ←
        try
          match (← entry.path.symlinkMetadata).type with
          | .dir => readDirectoryNode below
          | .file => readFileNode below
          | .symlink =>
            try
              match (← entry.path.metadata).type with
              | .file => readFileNode below
              | _ => pure (.link "")
            catch _ => pure (.link "")
          | .other => pure (.other (.error .noDevice))
        catch e => pure (.unlisted (ioErrorOf e))
      pure (entry.fileName, node)
    pure (.directory entries)
  catch e => pure (.closedDirectory (ioErrorOf e))

/-- What a path leads to, if anything; directories are read only if asked for. -/
def readNode? (whole : Bool) (path : String) : IO (Option FileNode) := do
  try
    let entry ← IO.FS.realPath path
    match (← entry.metadata).type with
    | .dir => if whole then some <$> readDirectoryNode path else pure (some (.directory []))
    | .file => some <$> readFileNode path
    | _ => pure (some (.other (← readBytes path)))
  catch _ => pure none

/-- The names on the way to a path. -/
def namesTo (workDir : List String) (path : String) : List String :=
  (Path.names path).foldl
    (fun here name =>
      if name = "." then here else if name = ".." then here.dropLast else here ++ [name])
    (if Path.isAbsolute path then [] else workDir)

/-- The path that another one leads to from a directory. -/
def pathFrom (directory path : String) : String :=
  if Path.isAbsolute path then path else Path.join directory path

/-- The files that an invocation is about. -/
def readFiles (invocation : CommandLine.Invocation) : IO FileSystem := do
  let start := Path.names (toString (← IO.FS.realPath "."))
  let mut root := FileNode.put (.directory []) start (.directory [])
  let mut directory := ""
  for path in invocation.directories do
    directory := pathFrom directory path
    if let some node ← readNode? false directory then
      root := FileNode.put node (namesTo start directory) root
  for path in invocation.input.paths do
    let whole := pathFrom directory path
    if let some node ← readNode? true whole then
      root := FileNode.put node (namesTo start whole) root
  pure ⟨root, start⟩

/-- The present time. -/
def presentTime : IO Timestamp := do
  let nanos := (← Std.Time.Timestamp.now).toNanosecondsSinceUnixEpoch.val
  pure ⟨nanos.fdiv 1000000000, (nanos.fmod 1000000000).toNat⟩

/-- What the parsers of this program say. -/
def wording : CommandLine.Wording where
  configuration := fun _ => "The text is no configuration"
  json := fun _ => "The bytes are no JSON text"
  help := fun _ => "Usage: tfscan [OPTIONS] <COMMAND>\n"
  misuse := fun _ => "Usage: tfscan [OPTIONS] <COMMAND>"

/-- Run the command line, print its report and answer with the exit code. -/
def run (words : List String) : IO UInt32 := do
  let fs ← match CommandLine.Invocation.ofWords words with
    | .ok invocation => readFiles invocation
    | .error _ => pure FileSystem.empty
  let report := Id.run (CommandLine.run wording Shell.launch (← presentTime) fs words)
  IO.print report.output
  for message in report.messages do
    IO.eprintln message
  pure report.exitCode.toUInt32

end ConfigAudit.Program

/-- The program. -/
def main (words : List String) : IO UInt32 := ConfigAudit.Program.run words
