import ConfigAudit.Files.FileTree
import ConfigAudit.Sources.Basic
import ConfigAudit.Sources.Options

/-!
# Loading sources

Texts are loaded from files and from directories. A directory is walked depth first in listing
order:

* real directories are entered, except those named like the cache directory;
* files, and links to files, are loaded if their name ends in the suffix;
* links to directories and all other entries are passed over.

Texts are loaded into a store. The walk stops at the first directory that cannot be listed to its
end or matching file that cannot be read; what was stored before stays. Directories are listed,
links followed and files read under the paths that the walk makes of names, which have to be fit
like any other path.
-/

namespace ConfigAudit

/-- Why loading fails: a directory holds no matching file, a file cannot be read, or a directory
cannot be listed. -/
inductive LoadError
  | noMatchingFiles (path suffix : String)
  | read (path : String) (cause : IoError)
  | walk (path : String) (cause : IoError)
  deriving DecidableEq, Repr

namespace LoadError

/-- The text of a failure. -/
def message : LoadError → String
  | .noMatchingFiles path suffix => "No " ++ suffix ++ " files found in " ++ path
  | .read path _ => "Unable to read " ++ path
  | .walk path _ => "Unable to walk directory " ++ path

/-- The failure of the system behind it. -/
def cause? : LoadError → Option IoError
  | .noMatchingFiles .. => none
  | .read _ cause => some cause
  | .walk _ cause => some cause

end LoadError

/-- Loading into a store of texts. What was stored before a failure stays. -/
abbrev Loading := ExceptT LoadError (StateM Sources)

/-- The text of a node that is read under a path. -/
def FileNode.textAt (path : String) (node : FileNode) : Except IoError String :=
  match Path.flaw? path with
  | some cause => .error cause
  | none => node.text

/-- Whether the name of a file ends in a suffix. -/
def nameMatches (suffix name : String) : Bool := suffix.toList.isSuffixOf name.toList

namespace Loading

/-- Load into stored texts: how it ends, and what is stored then. -/
def into {α : Type} (loading : Loading α) (sources : Sources) : Except LoadError α × Sources :=
  Id.run ((ExceptT.run loading).run sources)

@[simp] theorem into_pure {α : Type} (a : α) (sources : Sources) :
    (pure a : Loading α).into sources = (.ok a, sources) := rfl

@[simp] theorem into_throw {α : Type} (e : LoadError) (sources : Sources) :
    (throw e : Loading α).into sources = (.error e, sources) := rfl

@[simp] theorem into_get (sources : Sources) :
    (get : Loading Sources).into sources = (.ok sources, sources) := rfl

@[simp] theorem into_modify (f : Sources → Sources) (sources : Sources) :
    (modify f : Loading Unit).into sources = (.ok (), f sources) := rfl

@[simp] theorem into_bind {α β : Type} (first : Loading α) (next : α → Loading β)
    (sources : Sources) :
    (first >>= next).into sources =
      match first.into sources with
      | (.ok a, sources') => (next a).into sources'
      | (.error e, sources') => (.error e, sources') := by
  simp only [into, ExceptT.run_bind, StateT.run_bind, Id.run_bind]
  rcases (first.run.run sources).run with ⟨_ | _, _⟩ <;> rfl

/-- Add a text. -/
def insert (path : Option String) (text : String) : Loading Unit := modify (·.insert path text)

/-- Load the text of a node under a path. -/
def node (path : String) (node : FileNode) : Loading Unit :=
  match node.textAt path with
  | .ok text => insert (some path) text
  | .error cause => throw (.read path cause)

/-- Load a file. -/
def file (fs : FileSystem) (path : String) : Loading Unit :=
  match fs.readText path with
  | .ok text => insert (some path) text
  | .error cause => throw (.read path cause)

mutual

/-- Load one entry of a directory; `location` is the place of the directory, `links` may be followed
from there, and `path` is the path under which it was listed. -/
def entry (fs : FileSystem) (options : SourceOptions) (links : Nat) (location : List String)
    (path : String) (name : String) : FileNode → Loading Unit
  | .directory listed =>
    if name = options.cacheDir then pure ()
    else
      match Path.flaw? (Path.join path name) with
      | some cause => throw (.walk (Path.join path name) cause)
      | none => entries fs options links (location ++ [name]) (Path.join path name) listed
  | .closedDirectory cause =>
    if name = options.cacheDir then pure ()
    else
      throw (.walk (Path.join path name) ((Path.flaw? (Path.join path name)).getD cause))
  | .unlisted cause => throw (.walk path cause)
  | .file content =>
    if nameMatches options.suffix name then node (Path.join path name) (.file content) else pure ()
  | .closedFile cause =>
    if nameMatches options.suffix name then node (Path.join path name) (.closedFile cause)
    else pure ()
  | .link target =>
    match fs.followLink links location (Path.join path name) target with
    | .ok place =>
      if place.node.isFile && nameMatches options.suffix name then
        node (Path.join path name) place.node
      else pure ()
    | .error _ => pure ()
  | .other _ => pure ()

/-- Load the entries of a directory in listing order. -/
def entries (fs : FileSystem) (options : SourceOptions) (links : Nat) (location : List String)
    (path : String) : List (String × FileNode) → Loading Unit
  | [] => pure ()
  | (name, node) :: rest => do
    entry fs options links location path name node
    entries fs options links location path rest

end

/-- Walk a directory. -/
def walk (fs : FileSystem) (options : SourceOptions) (path : String) : Loading Unit :=
  match fs.directoryAt path with
  | .ok (origin, listed) => entries fs options origin.links origin.location path listed
  | .error cause => throw (.walk path cause)

/-- Load a directory, which has to hold a matching file. -/
def directory (fs : FileSystem) (options : SourceOptions) (path : String) : Loading Unit := do
  let before := (← get).length
  walk fs options path
  if (← get).length = before then throw (.noMatchingFiles path options.suffix)

/-- Load files one after the other. -/
def files (fs : FileSystem) (paths : List String) : Loading Unit := forM paths (file fs)

/-- All texts that are loaded into an empty store, or the failure. -/
def complete (loading : Loading Unit) : Except LoadError Sources :=
  match loading.into [] with
  | (.ok (), sources) => .ok sources
  | (.error e, _) => .error e

end Loading

/-- The texts that a step of loading added, and the failure that ended it, if any. -/
structure Loaded where
  added : Sources
  failure : Option LoadError
  deriving DecidableEq, Repr

/-- What a step of loading adds to an empty store. -/
def Loading.loaded (loading : Loading Unit) : Loaded :=
  match loading.into [] with
  | (.ok (), added) => ⟨added, none⟩
  | (.error e, added) => ⟨added, some e⟩

namespace FileSystem

/-- What loading a file adds. -/
def loadFile (fs : FileSystem) (path : String) : Loaded := (Loading.file fs path).loaded

/-- What loading a directory adds. -/
def loadDirectory (fs : FileSystem) (options : SourceOptions) (path : String) : Loaded :=
  (Loading.directory fs options path).loaded

end FileSystem

namespace Sources

/-- The texts of a file or of a directory. -/
def ofPath (fs : FileSystem) (options : SourceOptions) (path : String) : Except LoadError Sources :=
  match fs.resolve path with
  | .error cause => .error (.read path cause)
  | .ok place =>
    if place.node.isDirectory then (Loading.directory fs options path).complete
    else (Loading.file fs path).complete

/-- The texts of files in the given order. -/
def ofFiles (fs : FileSystem) (paths : List String) : Except LoadError Sources :=
  (Loading.files fs paths).complete

end Sources

end ConfigAudit
