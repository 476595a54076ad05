import ConfigAudit.Files.FileTree
import ConfigAudit.OrderedMap

/-!
# The state of a shell

Byte buffers stand for pipes: writing adds at the end, reading takes from the front. The three
standard streams lead to channels; a program runs as an action on the state, which ends early by an
exit or a signal.
-/

namespace ConfigAudit.Shell

/-- Where a stream leads: to a numbered buffer, to the file at a path, to nothing, or to zeros without
end, unless it is closed. What is written to nothing or to zeros is lost. -/
inductive Channel
  | buffer (n : Nat)
  | file (path : String)
  | null
  | zeros
  | closed
  deriving DecidableEq, Repr

/-- The standard streams. -/
structure Streams where
  input : Channel
  output : Channel
  errors : Channel
  deriving DecidableEq, Repr

/-- The state of a shell: the files that programs see and change, the buffers behind its streams,
the status of the last command, the parameters, and whether `echo` understands escapes. -/
structure Machine where
  files : FileSystem
  buffers : List (List UInt8)
  streams : Streams
  status : UInt8
  parameters : OrderedMap String
  echoEscapes : Bool

/-- Why a shell ends before its script does. -/
inductive Ending
  | exit (status : UInt8)
  | signal (n : Nat)
  deriving DecidableEq, Repr

/-- An action on the state. -/
abbrev Run := ExceptT Ending (StateM Machine)

/-- Run an action from a state. -/
def Run.start {α : Type} (action : Run α) (m : Machine) : Except Ending α × Machine :=
  (ExceptT.run action).run m

namespace Channel

/-- Write bytes. -/
def write (c : Channel) (bytes : List UInt8) : Run Unit :=
  match c with
  | .buffer n => modify fun m => { m with buffers := m.buffers.modify n (· ++ bytes) }
  | .file path => modify fun m =>
    let old := match m.files.resolve path with
      | .ok ⟨_, .file content, _⟩ => content
      | _ => []
    { m with files := m.files.put path (.file (old ++ bytes)) }
  | .null | .zeros | .closed => pure ()

/-- Take bytes from the front: `split` cuts off what is taken, and `endless` is what an endless
channel gives. -/
def take (c : Channel) (split : List UInt8 → List UInt8 × List UInt8) (endless : List UInt8) :
    Run (List UInt8) :=
  match c with
  | .buffer n => do
    let m ← get
    let (front, rest) := split (m.buffers[n]?.getD [])
    set { m with buffers := m.buffers.set n rest }
    pure front
  | .zeros => pure endless
  | .file _ | .null | .closed => pure []

/-- Take all bytes. -/
def takeAll (c : Channel) : Run (List UInt8) := c.take (fun bytes => (bytes, [])) []

/-- Take a number of bytes. -/
def takeBytes (c : Channel) (n : Nat) : Run (List UInt8) :=
  c.take (fun bytes => (bytes.take n, bytes.drop n)) (List.replicate n 0)

end Channel

/-- The byte that ends a line. -/
def lineEnd : UInt8 := 10

/-- Cut off a number of lines with their ends. -/
def splitLines : Nat → List UInt8 → List UInt8 × List UInt8
  | 0, bytes => ([], bytes)
  | n + 1, bytes =>
    let line := bytes.takeWhile (· != lineEnd)
    match bytes.dropWhile (· != lineEnd) with
    | [] => (line, [])
    | b :: rest =>
      let (more, left) := splitLines n rest
      (line ++ b :: more, left)

/-- Take a number of lines. -/
def Channel.takeLines (c : Channel) (n : Nat) : Run (List UInt8) := c.take (splitLines n) []

/-- A new buffer with content. -/
def newBuffer (content : List UInt8) : Run Channel := do
  let m ← get
  set { m with buffers := m.buffers ++ [content] }
  pure (.buffer m.buffers.length)

/-- Open a path for reading. -/
def openInput (path : String) : Run (Except IoError Channel) := do
  let m ← get
  match path with
  | "/dev/null" => pure (.ok .null)
  | "/dev/zero" => pure (.ok .zeros)
  | "/dev/stdin" => pure (.ok m.streams.input)
  | path =>
    match m.files.resolve path with
    | .ok place =>
      match place.node.bytes with
      | .ok content => do pure (.ok (← newBuffer content))
      | .error cause => pure (.error cause)
    | .error cause => pure (.error cause)

/-- The path of the directory that holds the entry at a path. -/
def directoryOf (path : String) : String :=
  let cs := (path.toList.reverse.dropWhile (· != '/')).reverse
  if cs.isEmpty then "." else String.ofList cs

/-- Open a path for writing; unless it is kept, the content of the file is removed. -/
def openOutput (path : String) (keep : Bool) : Run (Except IoError Channel) := do
  let m ← get
  match path with
  | "/dev/null" => pure (.ok .null)
  | "/dev/zero" => pure (.ok .zeros)
  | "/dev/stdout" => pure (.ok m.streams.output)
  | "/dev/stderr" => pure (.ok m.streams.errors)
  | path =>
    let clear : Run (Except IoError Channel) := do
      set { m with files := m.files.put path (.file []) }
      pure (.ok (.file path))
    match m.files.resolve path with
    | .ok ⟨_, .file _, _⟩ => if keep then pure (.ok (.file path)) else clear
    | .ok place => pure (.error (if place.node.isDirectory then .isDirectory else .permissionDenied))
    | .error .notFound =>
      match m.files.resolve (directoryOf path) with
      | .ok place => if place.node.isDirectory then clear else pure (.error .notDirectory)
      | .error cause => pure (.error cause)
    | .error cause => pure (.error cause)

end ConfigAudit.Shell
