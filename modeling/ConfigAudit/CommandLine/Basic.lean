import ConfigAudit.CommandLine.Arguments
import ConfigAudit.Scan.Basic
import ConfigAudit.Yaml.Printer

/-!
# The command line

`scan` prints the result of a scan and ends with 1 if a rule is broken; `extract` prints the
document that a rule engine would receive. Every failure ends with 1 and a chain of messages; words
that make no sense end with 2. What the parsers say of texts and words that they refuse, and the
help on words, is a parameter.
-/

namespace ConfigAudit.CommandLine

/-- What a run of the command line leaves: its exit code, the text on standard output, and the
messages on standard error, outermost first. -/
structure Report where
  exitCode : UInt8
  output : String
  messages : List String
  deriving DecidableEq, Repr

namespace Report

/-- A run that printed its result; `clean` tells whether it ends well. -/
def printed (output : String) (clean : Bool) : Report := ⟨if clean then 0 else 1, output, []⟩

/-- A run that failed. -/
def failed (messages : List String) : Report := ⟨1, "", messages⟩

end Report

/-- A result in a format. -/
def Format.render : Format → Json → String
  | .json, j => j.pretty ++ "\n"
  | .yaml, j => Yaml.print j

namespace Input

/-- The standard nesting, with the further kinds followed at every depth. -/
def nesting (input : Input) : NestingTable :=
  input.follow.foldl (fun table kind => table.follow kind 1 NestingTable.maxDepth) .standard

/-- Load a single path, or several files. -/
def load (input : Input) (fs : FileSystem) : Except LoadError Sources :=
  match input.paths with
  | [path] => Sources.ofPath fs input.options path
  | paths => Sources.ofFiles fs paths

end Input

/-- Change to directories, one after the other. -/
def enter (fs : FileSystem) : List String → Except (List String) FileSystem
  | [] => .ok fs
  | path :: rest =>
    match fs.resolve path with
    | .error cause =>
      .error ["Failed to resolve path for -C/--directory " ++ path, cause.message]
    | .ok place =>
      if place.node.isDirectory then enter { fs with workDir := place.location } rest
      else
        .error ["Failed to set work directory to " ++ "/" ++ String.intercalate "/" place.location,
          IoError.notDirectory.message]

/-- Print the document. -/
def extract (complaints : Complaints) (fs : FileSystem) (input : Input) (format : Format) :
    Report :=
  match input.load fs with
  | .error e => .failed e.messages
  | .ok sources =>
    match Document.parse? input.nesting (Sources.concatenated sources) with
    | some d => .printed (format.render d.toJson) true
    | none => .failed (ParseError.messages complaints ⟨Sources.concatenated sources⟩)

section
variable {m : Type → Type} [Monad m]

/-- Scan with an engine and print the result. -/
def scan (complaints : Complaints) (engine : RuleEngine m) (now : Timestamp) (fs : FileSystem)
    (input : Input) (format : Format) : m Report := do
  let scanner : Scanner m := { engine, nesting := input.nesting, options := input.options }
  let scanned ← match input.paths with
    | [path] => scanner.scanPath fs now path
    | paths => scanner.scanFiles fs now paths
  match scanned with
  | .ok result => pure (.printed (format.render result.toJson) (!result.hasViolations))
  | .error e => pure (.failed (e.messages complaints))

/-- Do what an invocation asks for. Programs are launched where the directories lead. -/
def perform (complaints : Complaints) (launch : FileSystem → Launcher m) (now : Timestamp)
    (fs : FileSystem) (invocation : Invocation) : m Report :=
  match enter fs invocation.directories with
  | .error messages => pure (.failed messages)
  | .ok fs =>
    match invocation.task with
    | .extract => pure (extract complaints fs invocation.input invocation.format)
    | .scan program args =>
      scan complaints (.command (launch fs) program args) now fs invocation.input invocation.format

/-- The texts that the parsers make: of configurations and JSON, and of the words of a command line,
for which there is help, or a message if they make no sense. -/
structure Wording extends Complaints where
  help : List String → String
  misuse : List String → String

/-- The name and number of this release. -/
def release : String := "tfscan 0.1.0\n"

/-- Run a command line. -/
def run (wording : Wording) (launch : FileSystem → Launcher m) (now : Timestamp) (fs : FileSystem)
    (words : List String) : m Report :=
  match Invocation.ofWords words with
  | .ok invocation => perform wording.toComplaints launch now fs invocation
  | .error .help => pure ⟨0, wording.help words, []⟩
  | .error .version => pure ⟨0, release, []⟩
  | .error .misuse => pure ⟨2, "", [wording.misuse words]⟩

end

end ConfigAudit.CommandLine
