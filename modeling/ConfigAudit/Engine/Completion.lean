import ConfigAudit.Files.IoError

/-!
# Completed programs

How a program ended and what it wrote: `Completion` is all that is known of a program afterwards. A
`Launcher` starts a program by name with arguments and standard input.
-/

namespace ConfigAudit

/-- How a program ended: by itself, with a code, or by a signal. -/
inductive ExitStatus
  | code (n : UInt8)
  | signal (n : Nat)
  deriving DecidableEq, Repr

namespace ExitStatus

/-- Whether the program ended well. -/
def isSuccess : ExitStatus → Bool
  | .code n => n = 0
  | .signal _ => false

/-- The names of the signals, from the first on. -/
def signalNames : List String :=
  ["HUP", "INT", "QUIT", "ILL", "TRAP", "ABRT", "BUS", "FPE", "KILL", "USR1", "SEGV", "USR2", "PIPE",
    "ALRM", "TERM", "STKFLT", "CHLD", "CONT", "STOP", "TSTP", "TTIN", "TTOU", "URG", "XCPU", "XFSZ",
    "VTALRM", "PROF", "WINCH", "IO", "PWR", "SYS"]

/-- The name of a signal. -/
def signalName? (n : Nat) : Option String := if n = 0 then none else signalNames[n - 1]?

/-- The text of a status. -/
def message : ExitStatus → String
  | .code n => "exit status: " ++ toString n.toNat
  | .signal n =>
    "signal: " ++ toString n ++
      match signalName? n with
      | some name => " (SIG" ++ name ++ ")"
      | none => ""

end ExitStatus

/-- What is left of a program that ended: its status and the bytes that it wrote. -/
structure Completion where
  status : ExitStatus
  output : List UInt8
  errors : List UInt8
  deriving DecidableEq, Repr

/-- A way to run a program with arguments and standard input to its end, or to learn why it does not
start. -/
abbrev Launcher (m : Type → Type) :=
  String → List String → List UInt8 → m (Except IoError Completion)

end ConfigAudit
