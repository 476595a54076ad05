import ConfigAudit.Engine.Completion
import ConfigAudit.Shell.ScriptText
import ConfigAudit.Shell.Utility

/-!
# Running scripts

Commands run one after the other; in a pipeline each command runs to its end before the next one
starts. A subshell gives back files and buffers but no streams, parameters or exits. All programs
are built in: the utilities, the shell itself, and the commands that change it. The number given to
`perform` bounds how deep commands nest.
-/

namespace ConfigAudit.Shell

/-- Set the status of the last command. -/
def setStatus (status : UInt8) : Run Unit := modify fun m => { m with status }

/-- Run in a copy of the shell. An exit ends only the copy; a signal ends the shell as well, since
both bear the same number. -/
def inSubshell (body : Run Unit) : Run Unit := do
  let outer ← get
  let (ended, inner) := body.start outer
  set { inner with streams := outer.streams, parameters := outer.parameters,
                   echoEscapes := outer.echoEscapes }
  match ended with
  | .ok () => pure ()
  | .error (.exit n) => setStatus n
  | .error (.signal n) => throw (.signal n)

/-- Run as a program of its own, whose signals only show in the status. -/
def inChild (body : Run Unit) : Run Unit := do
  try inSubshell body
  catch
    | .exit n => setStatus n
    | .signal n => setStatus (UInt8.ofNat (128 + n))

/-- What commands write to standard output. -/
def captured (body : Run Unit) : Run (List UInt8) := do
  let c ← newBuffer []
  inSubshell do
    modify fun m => { m with streams := { m.streams with output := c } }
    body
  c.takeAll

/-- The number of the shell among all running programs. -/
def ownNumber : String := "100"

/-- The value of a parameter; an unknown one is empty. -/
def parameter (name : String) : Run String := do
  let m ← get
  match name with
  | "?" => pure (toString m.status.toNat)
  | "$" => pure ownNumber
  | name => pure ((OrderedMap.lookup m.parameters name).getD "")

/-- The fields of a word so far, last one first, and the characters of the field that is being made,
if any, last one first. -/
structure Fields where
  finished : List String := []
  current : Option (List Char) := none

namespace Fields

/-- Add text to the open field. -/
def add (f : Fields) (text : List Char) : Fields :=
  { f with current := some (text.reverseAux (f.current.getD [])) }

/-- End the open field. -/
def close (f : Fields) : Fields :=
  match f.current with
  | some cs => ⟨String.ofList cs.reverse :: f.finished, none⟩
  | none => f

/-- Add text that is split at blanks. -/
def addSplit (f : Fields) (text : List Char) : Fields :=
  text.foldl (fun f c => if c = ' ' || c = '\t' || c = '\n' then f.close else f.add [c]) f

/-- All fields. -/
def toList (f : Fields) : List String := f.close.finished.reverse

end Fields

section
variable (perform : Command → Run Unit)

/-- The text that commands write, without line ends at its end. -/
def outputText (body : List Command) : Run (List Char) := do
  let bytes ← captured (body.forM perform)
  pure ((Utf8.decodeLenient bytes).toList.reverse.dropWhile (· = '\n')).reverse

/-- Expand a piece of a word. -/
def expandPiece (fields : Fields) : Piece → Run Fields
  | .text s => pure (fields.add s)
  | .parameter name quoted => do
    let value := (← parameter name).toList
    pure (if quoted then fields.add value else fields.addSplit value)
  | .output body quoted => do
    let value ← outputText perform body
    pure (if quoted then fields.add value else fields.addSplit value)

/-- The fields of a word. -/
def expand (w : Word) : Run (List String) := do
  pure (← w.foldlM (expandPiece perform) {}).toList

/-- The text of a word that is not split. -/
def expandText (w : Word) : Run String := do pure (String.intercalate " " (← expand perform w))

/-- The channel of a stream. -/
def streamAt (n : Nat) : Run Channel := do
  let s := (← get).streams
  pure (match n with
    | 0 => s.input
    | 1 => s.output
    | 2 => s.errors
    | _ => .closed)

/-- Lead a stream to a channel. -/
def setStream (n : Nat) (c : Channel) : Run Unit :=
  modify fun m => { m with streams := match n with
    | 0 => { m.streams with input := c }
    | 1 => { m.streams with output := c }
    | 2 => { m.streams with errors := c }
    | _ => m.streams }

/-- Make a redirection, and tell whether it could be made. -/
def redirect : Redirection → Run Bool
  | .mk stream mode target => do
    let path ← expandText perform target
    match mode with
    | .duplicate =>
      if path = "-" then setStream stream .closed
      else setStream stream (← streamAt (path.toNat?.getD 3))
      pure true
    | mode =>
      let opened ← if mode = .input then openInput path else openOutput path (mode = .append)
      match opened with
      | .ok c =>
        setStream stream c
        pure true
      | .error cause =>
        complain ("sh: 1: cannot "
          ++ (if mode = .input then "open " else "create ") ++ path ++ ": " ++ cause.reason)
        pure false

/-- Run with redirections that hold for this time only. -/
def redirected (redirections : List Redirection) (body : Run Unit) : Run Unit := do
  let streams := (← get).streams
  if ← redirections.allM (redirect perform) then body else setStatus 2
  modify fun m => { m with streams }

/-- Run the text of a script with positional parameters. -/
def runText (text name : String) (args : List String) : Run Unit := do
  let numbered := args.zipIdx.map fun (arg, i) => (toString (i + 1), arg)
  let all := String.intercalate " " args
  let parameters := OrderedMap.ofEntries
    ([("0", name), ("#", toString args.length), ("@", all), ("*", all)] ++ numbered)
  modify fun m => { m with parameters }
  match parse? text with
  | some body => body.forM perform
  | none =>
    complain (name ++ ": 1: Syntax error")
    setStatus 2

/-- The shell as a program: a script in an argument, in a file, or on standard input. -/
def shell (name : String) (args : List String) : Run Unit := do
  modify fun m => { m with echoEscapes := name != "bash" }
  match args with
  | "-c" :: text :: [] => runText perform text name []
  | "-c" :: text :: zero :: rest => runText perform text zero rest
  | ["-c"] => do
    complain (name ++ ": 0: -c requires an argument")
    setStatus 2
  | [] | ["-s"] => do
    let bytes ← (← get).streams.input.takeAll
    runText perform (Utf8.decodeLenient bytes) name []
  | path :: rest => do
    match ← openInput path with
    | .ok c => runText perform (Utf8.decodeLenient (← c.takeAll)) path rest
    | .error _ =>
      complain (name ++ ": 0: cannot open " ++ path ++ ": No such file")
      setStatus 2

/-- Whether a name is that of the shell. -/
def isShell (name : String) : Bool := name ∈ ["sh", "dash", "bash"]

/-- Run a program that is no part of the shell, if there is one of that name. -/
def runProgram? (name : String) (args : List String) : Option (Run Unit) :=
  if isShell name then some (shell perform name args)
  else (utility? name).map fun utility => do setStatus (← utility args)

/-- The number of a signal, by number or name. -/
def signalNumber? (text : String) : Option Nat :=
  match text.toNat? with
  | some n => some n
  | none =>
    let name := if text.startsWith "SIG" then String.ofList (text.toList.drop 3) else text
    (ExitStatus.signalNames.idxOf? name).map (· + 1)

/-- Signals that do not end a program. -/
def isHarmless (n : Nat) : Bool := n ∈ [0, 17, 18, 23, 28]

/-- Send a signal; only the shell itself can be reached. -/
def kill (args : List String) : Run Unit := do
  let (wanted, targets) := match args with
    | "-s" :: name :: rest => (signalNumber? name, rest)
    | arg :: rest =>
      match arg.toList with
      | '-' :: cs => (signalNumber? (String.ofList cs), rest)
      | _ => (some 15, args)
    | [] => (none, [])
  match wanted with
  | none =>
    complain "sh: 1: kill: Illegal number"
    setStatus 2
  | some n =>
    if targets.contains ownNumber then
      if isHarmless n then setStatus 0 else throw (.signal n)
    else
      complain "sh: 1: kill: No such process"
      setStatus 1

/-- Read a line into parameters; the last one takes the rest of the line. -/
def readLine (names : List String) : Run Unit := do
  let bytes ← (← get).streams.input.takeLines 1
  let words := ((Utf8.decodeLenient (bytes.filter (· != lineEnd))).splitOn " ").filter (· != "")
  let names := names.filter fun n => !n.startsWith "-"
  let last := names.length - 1
  for (name, i) in names.zipIdx do
    let value := if i = last then String.intercalate " " (words.drop i) else words[i]?.getD ""
    modify fun m => { m with parameters := m.parameters.insert name value }
  setStatus (if bytes.contains lineEnd then 0 else 1)

/-- Leave the shell. -/
def exitShell (args : List String) : Run Unit := do
  match args.head? with
  | none => throw (.exit (← get).status)
  | some text =>
    match text.toNat? with
    | some n => throw (.exit (UInt8.ofNat n))
    | none =>
      complain ("sh: 1: exit: Illegal number: " ++ text)
      throw (.exit 2)

/-- The name of a program without the directory in which all programs stand. -/
def programName (name : String) : String :=
  match ["/bin/", "/usr/bin/"].find? fun d => name.startsWith d with
  | some d => String.ofList (name.toList.drop d.length)
  | none => name

/-- Call a command by name. -/
def call (name : String) (args : List String) : Run Unit :=
  match name with
  | ":" => setStatus 0
  | "exit" => exitShell args
  | "kill" => kill args
  | "read" => readLine args
  | name =>
    match runProgram? perform (programName name) args with
    | some body => inChild body
    | none => do
      complain ("sh: 1: " ++ name ++ ": not found")
      setStatus 127

/-- Whether a piece is the output of commands. -/
def isOutput : Piece → Bool
  | .output .. => true
  | _ => false

/-- Perform a simple command. Without a name, assignments stay, and so do the redirections of
`exec`. -/
def performSimple (assignments : List (String × Word)) (words : List Word)
    (redirections : List Redirection) : Run Unit := do
  let fields ← words.mapM (expand perform)
  match fields.flatten with
  | [] =>
    for (name, value) in assignments do
      let value ← expandText perform value
      modify fun m => { m with parameters := m.parameters.insert name value }
    redirected perform redirections (pure ())
    if !(assignments.any fun a => a.2.any isOutput) then setStatus 0
  | ["exec"] =>
    if ← redirections.allM (redirect perform) then setStatus 0 else throw (.exit 2)
  | "exec" :: name :: args =>
    redirected perform redirections (do
      call perform name args
      throw (.exit (← get).status))
  | name :: args => redirected perform redirections (call perform name args)

/-- Perform a command by means of a way to perform the commands inside it. -/
def performStep : Command → Run Unit
  | .simple assignments words redirections =>
    performSimple perform assignments words redirections
  | .group body redirections => redirected perform redirections (body.forM perform)
  | .subshell body redirections =>
    inSubshell (redirected perform redirections (body.forM perform))
  | .pipe left right => do
    let c ← newBuffer []
    inSubshell (do setStream 1 c; perform left)
    inSubshell (do setStream 0 c; perform right)
  | .negated c => do
    perform c
    modify fun m => { m with status := if m.status = 0 then 1 else 0 }
  | .both left right => do
    perform left
    if (← get).status = 0 then perform right
  | .either left right => do
    perform left
    if (← get).status != 0 then perform right

end

/-- Perform a command that nests no deeper than a bound. -/
def perform : Nat → Command → Run Unit
  | 0, _ => throw (.exit 2)
  | depth + 1, c => performStep (perform depth) c

/-- How deep commands may nest. -/
def maxDepth : Nat := 10000

/-- The built-in program of a name, looked up as the system looks up programs. -/
def find? (fs : FileSystem) (program : String) (args : List String) :
    Except IoError (Run Unit) :=
  match runProgram? (perform maxDepth) (programName program) args with
  | some body => .ok body
  | none =>
    if program.isEmpty then .error .notFound
    else if program.toList.contains '/' then
      match fs.resolve program with
      | .ok _ => .error .permissionDenied
      | .error cause => .error cause
    else if program = "." || program = ".." then .error .permissionDenied
    else if FileSystem.maxName < program.utf8ByteSize then .error .nameTooLong
    else .error .notFound

/-- What a program leaves that runs on a copy of the files. -/
def completion (fs : FileSystem) (input : List UInt8) (body : Run Unit) : Completion :=
  let (ended, m) := body.start
    { files := fs, buffers := [input, [], []],
      streams := ⟨.buffer 0, .buffer 1, .buffer 2⟩, status := 0, parameters := [],
      echoEscapes := false }
  { status := match ended with
      | .ok () => .code m.status
      | .error (.exit n) => .code n
      | .error (.signal n) => .signal n
    output := m.buffers[1]?.getD []
    errors := m.buffers[2]?.getD [] }

/-- Launch built-in programs, which see a copy of the files. -/
def launch (fs : FileSystem) : Launcher Id := fun program args input =>
  if (program :: args).any fun word => word.toList.contains '\x00' then .error .zeroInCommand
  else (find? fs program args).map (completion fs input)

end ConfigAudit.Shell
