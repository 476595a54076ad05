import ConfigAudit.Engine.Basic
import ConfigAudit.Findings.ScanResult
import ConfigAudit.Sources.Loading

/-!
# Scans

A scan loads texts, parses their concatenation into a document, has the document evaluated and
scores the findings, strictly in this order. The first phase that fails ends it, and the engine is
asked only after the two phases before it.
-/

namespace ConfigAudit

/-- The failure to read a text as a configuration. What the parser says of it is a function of the
text. -/
structure ParseError where
  refused : String
  deriving DecidableEq, Repr

/-- Why a scan fails, by phase. -/
inductive ScanError
  | load (cause : LoadError)
  | parse (cause : ParseError)
  | evaluate (cause : EngineError)
  deriving DecidableEq, Repr

/-- What the parsers of configurations and of JSON say of what they refuse. -/
structure Complaints where
  configuration : ParseError → String
  json : JsonError → String

/-! ### Messages of failures, outermost first -/

namespace LoadError

/-- A failure to load and the failure of the system behind it. -/
def messages (e : LoadError) : List String := e.message :: (e.cause?.map IoError.message).toList

end LoadError

namespace ParseError

/-- The text for a configuration that does not parse. -/
def message (_ : ParseError) : String := "Unable to parse terraform configuration"

/-- A failure to parse and what the parser says. -/
def messages (complaints : Complaints) (e : ParseError) : List String :=
  [e.message, complaints.configuration e]

end ParseError

namespace EngineError

/-- A failure of an engine and what is behind it. -/
def messages (complaints : Complaints) (e : EngineError) : List String :=
  e.message ::
    match e with
    | .spawn _ cause => [cause.message]
    | .output cause => [complaints.json cause]
    | .status .. | .engine _ => []

end EngineError

namespace ScanError

/-- The text of a failure. -/
def message : ScanError → String
  | .load _ => "Unable to load configuration"
  | .parse _ => "Unable to parse configuration"
  | .evaluate _ => "Rule evaluation failed"

/-- The messages of the phase that failed. -/
def causes (complaints : Complaints) : ScanError → List String
  | .load cause => cause.messages
  | .parse cause => cause.messages complaints
  | .evaluate cause => cause.messages complaints

/-- A failed scan and the messages of the phase that failed. -/
def messages (complaints : Complaints) (e : ScanError) : List String :=
  e.message :: e.causes complaints

end ScanError

/-- How documents are made and evaluated: with a rule engine, the nested blocks that are extracted,
and the files that are picked up from directories. -/
structure Scanner (m : Type → Type) where
  engine : RuleEngine m
  nesting : NestingTable := .standard
  options : SourceOptions := .standard

namespace Scanner

variable {m : Type → Type} [Monad m]

/-- Evaluate a document. -/
def scanDocument (scanner : Scanner m) (now : Timestamp) (d : Document) :
    m (Except ScanError ScanResult) := do
  match ← scanner.engine d with
  | .ok raw => pure (.ok (ScanResult.ofEvaluation (Evaluation.ofJson raw) now))
  | .error cause => pure (.error (.evaluate cause))

/-- Scan a text. -/
def scanText (scanner : Scanner m) (now : Timestamp) (text : String) :
    m (Except ScanError ScanResult) :=
  match Document.parse? scanner.nesting text with
  | some d => scanner.scanDocument now d
  | none => pure (.error (.parse ⟨text⟩))

/-- Scan loaded texts as one. -/
def scanSources (scanner : Scanner m) (now : Timestamp) (sources : Sources) :
    m (Except ScanError ScanResult) :=
  scanner.scanText now sources.concatenated

/-- Scan what was loaded. -/
def scanLoaded (scanner : Scanner m) (now : Timestamp) :
    Except LoadError Sources → m (Except ScanError ScanResult)
  | .ok sources => scanner.scanSources now sources
  | .error cause => pure (.error (.load cause))

/-- Scan a file, or the matching files of a directory. -/
def scanPath (scanner : Scanner m) (fs : FileSystem) (now : Timestamp) (path : String) :
    m (Except ScanError ScanResult) :=
  scanner.scanLoaded now (Sources.ofPath fs scanner.options path)

/-- Scan a list of files. -/
def scanFiles (scanner : Scanner m) (fs : FileSystem) (now : Timestamp) (paths : List String) :
    m (Except ScanError ScanResult) :=
  scanner.scanLoaded now (Sources.ofFiles fs paths)

end Scanner

end ConfigAudit
