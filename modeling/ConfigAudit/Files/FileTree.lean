import ConfigAudit.Files.IoError
import ConfigAudit.Text.Utf8

/-!
# File trees

A finite model of a file system: directories with an ordered list of named entries, files of bytes,
symbolic links, and entries of other kinds; directories that cannot be listed, entries at which a
listing breaks off and files that cannot be read carry the reason. Paths are resolved from a working
directory, following links. What makes a path unfit as such, `Path.flaw?`, and how many links may be
followed on the way is the same for every use of a path.
-/

namespace ConfigAudit

/-- An entry of a file system: a directory with its entries in listing order, a file with its
content, a symbolic link, or an entry of another kind, such as a pipe or a device, with what reading
it gives; also a directory that cannot be listed, an entry at which the listing of its directory
breaks off, and a file that cannot be read. -/
inductive FileNode
  | directory (entries : List (String × FileNode))
  | file (content : List UInt8)
  | link (target : String)
  | other (content : Except IoError (List UInt8))
  | closedDirectory (cause : IoError)
  | unlisted (cause : IoError)
  | closedFile (cause : IoError)
  deriving Inhabited

namespace FileNode

/-- Whether a node is a directory. -/
def isDirectory : FileNode → Bool
  | .directory _ => true
  | .closedDirectory _ => true
  | _ => false

/-- Whether a node is a regular file. -/
def isFile : FileNode → Bool
  | .file _ => true
  | .closedFile _ => true
  | _ => false

/-- The entry of a directory. -/
def named? (name : String) : List (String × FileNode) → Option FileNode
  | [] => none
  | (n, node) :: rest => if n = name then some node else named? name rest

/-- The node below a node along directory names. -/
def descend? : FileNode → List String → Option FileNode
  | node, [] => some node
  | .directory entries, name :: rest => (named? name entries).bind (descend? · rest)
  | _, _ :: _ => none

/-- What reading a node as a file gives. -/
def bytes : FileNode → Except IoError (List UInt8)
  | .file content => .ok content
  | .other content => content
  | .closedFile cause | .unlisted cause => .error cause
  | .directory _ | .closedDirectory _ => .error .isDirectory
  | .link _ => .error .notFound

/-- The text of a node that is read as a file. -/
def text (node : FileNode) : Except IoError String :=
  match node.bytes with
  | .ok content =>
    match Utf8.decode? content with
    | some s => .ok s
    | none => .error .notText
  | .error cause => .error cause

/-- Put a node into a list of entries, in place of one with the same name. -/
def putEntry (name : String) (node : FileNode) : List (String × FileNode) → List (String × FileNode)
  | [] => [(name, node)]
  | (n, old) :: rest =>
    if n = name then (n, node) :: rest else (n, old) :: putEntry name node rest

/-- Put a node at a place below a node, making directories on the way. A directory that is put where
one stands already leaves it as it is. -/
def put (node : FileNode) : List String → FileNode → FileNode
  | [], old =>
    match node, old with
    | .directory [], .directory entries => .directory entries
    | node, _ => node
  | name :: rest, old =>
    let entries := match old with
      | .directory entries => entries
      | _ => []
    .directory (putEntry name (put node rest ((named? name entries).getD (.directory []))) entries)

end FileNode

/-- A tree with a working directory, given by the names on the way to it. -/
structure FileSystem where
  root : FileNode
  workDir : List String
  deriving Inhabited

/-- A place in a file system, given by the names on the way from the root, with the node that stands
there and the number of links that may still be followed from it. -/
structure Place where
  location : List String
  node : FileNode
  links : Nat

/-- A directory that is walked: the path under which it was found, the names on the way to it from
the root, and the number of links that may still be followed from it. -/
structure Origin where
  path : String
  location : List String
  links : Nat

namespace Path

/-- The names of a path. A slash at the end asks for a directory, as a point after it would. -/
def names (path : String) : List String :=
  let parts := path.splitOn "/"
  parts.filter (· != "") ++ if parts.getLast? = some "" ∧ 1 < parts.length then ["."] else []

/-- Whether a path starts from the root. -/
def isAbsolute (path : String) : Bool := path.toList.head? = some '/'

/-- A path followed by a name. -/
def join (path name : String) : String :=
  if path.isEmpty || path.toList.getLast? = some '/' then path ++ name else path ++ "/" ++ name

/-- The longest path in bytes. -/
def maxLength : Nat := 4095

/-- Why a path leads nowhere, wherever it is used. -/
def flaw? (path : String) : Option IoError :=
  if path.toList.contains '\x00' then some .zeroInPath
  else if path.isEmpty then some .notFound
  else if maxLength < path.utf8ByteSize then some .nameTooLong
  else none

end Path

namespace FileSystem

/-- Links that may be followed while a path is resolved. -/
def maxLinks : Nat := 40

/-- The longest name of an entry in bytes. -/
def maxName : Nat := 255

/-- Resolve names from a place. The first argument counts the links that may still be followed. -/
def resolveNames (root : FileNode) : Nat → List String → List String → Except IoError Place
  | links, here, [] =>
    match root.descend? here with
    | some node => .ok ⟨here, node, links⟩
    | none => .error .notFound
  | links, here, name :: rest =>
    match root.descend? here with
    | some (.directory entries) =>
      if name = "." then resolveNames root links here rest
      else if name = ".." then resolveNames root links here.dropLast rest
      else match FileNode.named? name entries with
        | none => .error (if maxName < name.utf8ByteSize then .nameTooLong else .notFound)
        | some (.link target) =>
          match links with
          | 0 => .error .tooManyLinks
          | links + 1 =>
            if target.isEmpty then .error .notFound
            else
              resolveNames root links (if Path.isAbsolute target then [] else here)
                (Path.names target ++ rest)
        | some (.unlisted cause) => .error cause
        | some _ => resolveNames root links (here ++ [name]) rest
    | some (.closedDirectory cause) => .error cause
    | some _ => .error .notDirectory
    | none => .error .notFound
termination_by links _ todo => (links, todo.length)

/-- The place that a path leads to. -/
def resolve (fs : FileSystem) (path : String) : Except IoError Place :=
  match Path.flaw? path with
  | some cause => .error cause
  | none =>
    resolveNames fs.root maxLinks (if Path.isAbsolute path then [] else fs.workDir)
      (Path.names path)

/-- The place that a path leads to whose last name is a link. The link stands in a directory, and
`links` may be followed from there. -/
def followLink (fs : FileSystem) (links : Nat) (directory : List String) (path target : String) :
    Except IoError Place :=
  match Path.flaw? path, links with
  | some cause, _ => .error cause
  | none, 0 => .error .tooManyLinks
  | none, links + 1 =>
    if target.isEmpty then .error .notFound
    else resolveNames fs.root links (if Path.isAbsolute target then [] else directory)
      (Path.names target)

/-- The text of the file at a path. -/
def readText (fs : FileSystem) (path : String) : Except IoError String := do
  (← fs.resolve path).node.text

/-- The directory at a path, with its entries in listing order. -/
def directoryAt (fs : FileSystem) (path : String) :
    Except IoError (Origin × List (String × FileNode)) :=
  match fs.resolve path with
  | .ok ⟨location, .directory listed, links⟩ => .ok (⟨path, location, links⟩, listed)
  | .ok ⟨_, .closedDirectory cause, _⟩ => .error cause
  | .ok _ => .error .notDirectory
  | .error cause => .error cause

/-- A file system that holds nothing. -/
def empty : FileSystem := ⟨.directory [], []⟩

/-- Put a node at a path below the working directory. -/
def put (fs : FileSystem) (path : String) (node : FileNode) : FileSystem :=
  { fs with root := FileNode.put node (fs.workDir ++ (Path.names path).filter (· != ".")) fs.root }

end FileSystem

end ConfigAudit
