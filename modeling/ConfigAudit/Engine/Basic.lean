import ConfigAudit.Document.Json
import ConfigAudit.Engine.Completion
import ConfigAudit.Json.Printer
import ConfigAudit.Json.Reader
import ConfigAudit.Text.Utf8
import ConfigAudit.Text.WhiteSpace

/-!
# Rule engines

A rule engine answers a document with a JSON value. It is a function that may have effects;
`RuleEngine.command` is the one that runs a program, with the document as compact JSON on its
standard input and the answer on its standard output.
-/

namespace ConfigAudit

/-- The failure to read bytes as JSON. What the reader says of them is a function of the bytes. -/
structure JsonError where
  refused : List UInt8
  deriving DecidableEq, Repr

/-- Why a rule engine gives no answer: its program does not start, ends badly with some text on
standard error, or writes something else than JSON, or the engine has a reason of its own. -/
inductive EngineError
  | spawn (program : String) (cause : IoError)
  | status (program : String) (ended : ExitStatus) (errors : String)
  | output (cause : JsonError)
  | engine (reason : String)
  deriving DecidableEq, Repr

namespace EngineError

/-- The text of a failure. -/
def message : EngineError → String
  | .spawn program _ => "Unable to run rule engine " ++ program
  | .status program ended errors =>
    "Rule engine " ++ program ++ " exited with " ++ ended.message ++ ": " ++ errors
  | .output _ => "Rule engine output is not valid JSON"
  | .engine reason => reason

end EngineError

/-- An evaluator of documents. -/
abbrev RuleEngine (m : Type → Type) := Document → m (Except EngineError Json)

namespace Document

/-- The bytes that a program gets to read: the compact JSON text. -/
def bytes (d : Document) : List UInt8 := Utf8.encode d.toJson.compact

end Document

namespace Completion

/-- The answer of a program that ended. The status comes first: output is read only after
success. -/
def answer (program : String) (c : Completion) : Except EngineError Json :=
  if c.status.isSuccess then
    match (Utf8.decode? c.output).bind Json.parse? with
    | some json => .ok json
    | none => .error (.output ⟨c.output⟩)
  else .error (.status program c.status (trimWhiteSpace (Utf8.decodeLenient c.errors)))

end Completion

namespace RuleEngine

variable {m : Type → Type} [Monad m]

/-- The engine that runs a program. -/
def command (launch : Launcher m) (program : String) (args : List String) :
    RuleEngine m := fun d => do
  match ← launch program args d.bytes with
  | .ok completion => pure (completion.answer program)
  | .error cause => pure (.error (.spawn program cause))

/-- The engine that gives the same answer to every document. -/
def fixed (answer : Json) : RuleEngine m := fun _ => pure (.ok answer)

/-- The engine that fails on every document. -/
def failing (reason : String) : RuleEngine m := fun _ => pure (.error (.engine reason))

end RuleEngine

end ConfigAudit
