import ConfigAudit.Sources.Options

/-!
# Arguments

The words of a command line. Options in front of the subcommand and behind it are read from left to
right:

* a value follows in the next word, or stands in the same word, behind `=` for long options and with
  or without `=` for short ones;
* a word that looks like an option is no value, except for an option that takes any word;
* the value of an option is checked when the next option begins, or at the end;
* two hyphens make paths of all words behind them;
* help and version are shown at once, if everything before them is right.
-/

namespace ConfigAudit.CommandLine

/-- How results are written. -/
inductive Format
  | json
  | yaml
  deriving DecidableEq, Repr

/-- The name of a format. -/
def Format.ofName? : String → Option Format
  | "json" => some .json
  | "yaml" => some .yaml
  | _ => none

/-- The subcommands that do work. -/
inductive Subcommand
  | scan
  | extract
  deriving DecidableEq, Repr

/-- The subcommand of a name. -/
def Subcommand.ofName? : String → Option Subcommand
  | "scan" => some .scan
  | "extract" => some .extract
  | _ => none

/-- The options. -/
inductive Flag
  | directory
  | engine
  | engineArg
  | suffix
  | cacheDir
  | follow
  | format
  | help
  | version
  deriving DecidableEq, Repr

namespace Flag

/-- Whether an option is known in front of a subcommand, for none, or behind it. -/
def isKnown : Option Subcommand → Flag → Bool
  | _, .directory | _, .help => true
  | none, flag => flag = .version
  | some .scan, flag => flag ≠ .version
  | some .extract, flag => flag ∈ [.suffix, .cacheDir, .follow, .format]

/-- The option of a long name. -/
def named? : String → Option Flag
  | "directory" => some .directory
  | "engine" => some .engine
  | "engine-arg" => some .engineArg
  | "suffix" => some .suffix
  | "cache-dir" => some .cacheDir
  | "follow" => some .follow
  | "output-format" => some .format
  | "help" => some .help
  | "version" => some .version
  | _ => none

/-- The option of a letter. -/
def lettered? : Char → Option Flag
  | 'C' => some .directory
  | 'e' => some .engine
  | 'F' => some .format
  | 'h' => some .help
  | 'V' => some .version
  | _ => none

/-- Whether an option has a value. -/
def takesValue (flag : Flag) : Bool := flag ∉ [.help, .version]

/-- Whether any word may be the value of an option. -/
def takesAnyWord (flag : Flag) : Bool := flag = .engineArg

/-- Whether an option may be given more than once. -/
def isRepeatable (flag : Flag) : Bool := flag ∈ [.directory, .engineArg, .follow]

/-- Whether a text can be the value of an option. -/
def accepts (flag : Flag) (value : String) : Bool :=
  match flag with
  | .directory => value ≠ ""
  | .format => (Format.ofName? value).isSome
  | _ => true

end Flag

/-- Why a command line leads to no work: help or the version is asked for, or the words make no
sense. -/
inductive Stop
  | help
  | version
  | misuse
  deriving DecidableEq, Repr

/-- Words that were read but not checked yet: an option, with its value if that was read, or
paths. -/
inductive Pending
  | option (flag : Flag) (value : Option String)
  | paths (words : List String)
  deriving DecidableEq, Repr

/-- What was read so far, and what of it is still to be checked. -/
structure Given where
  options : List (Flag × String) := []
  paths : List String := []
  pending : Option Pending := none
  deriving DecidableEq, Repr

namespace Given

/-- The values of an option. -/
def values (g : Given) (flag : Flag) : List String :=
  (g.options.filter (·.1 = flag)).map (·.2)

/-- The value of an option that is given at most once. -/
def value? (g : Given) (flag : Flag) : Option String := (g.values flag).head?

/-- Add a value to an option. -/
def add (g : Given) (flag : Flag) (value : String) : Except Stop Given :=
  if !flag.accepts value || (!flag.isRepeatable && !(g.values flag).isEmpty) then .error .misuse
  else .ok { g with options := g.options ++ [(flag, value)] }

/-- Check what is pending. -/
def settle (g : Given) : Except Stop Given :=
  match g.pending with
  | none => .ok g
  | some (.option _ none) => .error .misuse
  | some (.option flag (some value)) => { g with pending := none }.add flag value
  | some (.paths words) =>
    if words.contains "" then .error .misuse
    else .ok { g with pending := none, paths := g.paths ++ words }

/-- The option that waits for its value. -/
def waiting? (g : Given) : Option Flag :=
  match g.pending with
  | some (.option flag none) => some flag
  | _ => none

/-- Add a path. -/
def addPath (g : Given) (word : String) : Except Stop Given :=
  match g.pending with
  | some (.paths words) => .ok { g with pending := some (.paths (words ++ [word])) }
  | _ => g.settle.map fun g => { g with pending := some (.paths [word]) }

/-- Begin an option whose value, if it has one, may stand in the same word. -/
def begin (g : Given) (flag : Flag) (attached : Option String) : Except Stop Given := do
  if flag.takesValue then
    let g ← g.settle
    match attached with
    | some value => g.add flag value
    | none => .ok { g with pending := some (.option flag none) }
  else if attached.isSome then .error .misuse
  else
    let _ ← g.settle
    .error (if flag = .version then .version else .help)

end Given

/-- Whether a word looks like an option. -/
def looksLikeOption (word : String) : Bool :=
  match word.toList with
  | '-' :: _ :: _ => true
  | _ => false

/-- Read an option; `level` is the subcommand behind which it stands. -/
def readOption (level : Option Subcommand) (g : Given) (word : String) : Except Stop Given :=
  match word.toList with
  | '-' :: '-' :: cs =>
    let name := String.ofList (cs.takeWhile (· ≠ '='))
    let attached := match cs.dropWhile (· ≠ '=') with
      | [] => none
      | _ :: value => some (String.ofList value)
    match (Flag.named? name).filter (Flag.isKnown level) with
    | some flag => g.begin flag attached
    | none => .error .misuse
  | '-' :: c :: cs =>
    match (Flag.lettered? c).filter (Flag.isKnown level) with
    | some flag =>
      let attached := match cs with
        | [] => none
        | '=' :: value => some (String.ofList value)
        | value => some (String.ofList value)
      g.begin flag (if flag.takesValue then attached else none)
    | none => .error .misuse
  | _ => .error .misuse

/-- Read a word as the value that an option waits for. -/
def readValue (g : Given) (flag : Flag) (word : String) : Except Stop Given :=
  if looksLikeOption word && !flag.takesAnyWord then .error .misuse
  else .ok { g with pending := some (.option flag (some word)) }

/-- Read the words behind a subcommand. -/
def readWords (level : Subcommand) : Given → List String → Except Stop Given
  | g, [] => g.settle
  | g, word :: rest =>
    match g.waiting? with
    | some flag => do readWords level (← readValue g flag word) rest
    | none =>
      if word = "--" then do (← rest.foldlM Given.addPath g).settle
      else if looksLikeOption word then do
        readWords level (← readOption (some level) g word) rest
      else do readWords level (← g.addPath word) rest

/-- Help on the subcommands that words name. The help command itself may be named as well, but has
no subcommands. -/
def readHelp : List String → Stop
  | [] => .help
  | [name] => if name = "help" || (Subcommand.ofName? name).isSome then .help else .misuse
  | _ => .misuse

/-- Read the words up to the subcommand; the answer holds what stands in front of the subcommand and
behind it. -/
def readCommand : Given → List String → Except Stop (Given × Subcommand × Given)
  | _, [] => .error .misuse
  | g, word :: rest =>
    match g.waiting? with
    | some flag => do readCommand (← readValue g flag word) rest
    | none =>
      if word = "help" then .error (readHelp rest)
      else match Subcommand.ofName? word with
        | some level => do
          let inner ← readWords level {} rest
          let outer ← g.settle
          .ok (outer, level, inner)
        | none =>
          if word ≠ "--" && looksLikeOption word then do
            readCommand (← readOption none g word) rest
          else .error .misuse

/-- What is read, and how: a file, a directory or several files, the files that are picked up from
directories, and further kinds of nested blocks that are extracted. -/
structure Input where
  paths : List String
  options : SourceOptions
  follow : List String
  deriving DecidableEq, Repr

/-- What is done: have a rule engine evaluate the configuration, or show it as a rule engine
receives it. -/
inductive Task
  | scan (engine : String) (args : List String)
  | extract
  deriving DecidableEq, Repr

/-- A command line that makes sense; the directories are changed to in order. -/
structure Invocation where
  directories : List String
  input : Input
  format : Format
  task : Task
  deriving DecidableEq, Repr

/-- Read a command line. Directories behind the subcommand take the place of those in front of
it. -/
def Invocation.ofWords (words : List String) : Except Stop Invocation := do
  let (outer, level, inner) ← readCommand {} words
  if inner.paths.isEmpty then .error .misuse
  let task ← match level, inner.value? .engine with
    | .extract, _ => .ok Task.extract
    | .scan, some engine => .ok (.scan engine (inner.values .engineArg))
    | .scan, none => .error .misuse
  let directories := inner.values .directory
  .ok
    { directories := if directories.isEmpty then outer.values .directory else directories
      input :=
        { paths := inner.paths
          options :=
            { suffix := (inner.value? .suffix).getD SourceOptions.standard.suffix
              cacheDir := (inner.value? .cacheDir).getD SourceOptions.standard.cacheDir }
          follow := inner.values .follow }
      format := ((inner.value? .format).bind Format.ofName?).getD .json
      task }

end ConfigAudit.CommandLine
