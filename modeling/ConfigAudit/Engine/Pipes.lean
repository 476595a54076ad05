import ConfigAudit.Engine.Basic
import Mathlib.Data.PNat.Notation
import Mathlib.Logic.Function.Basic
import Mathlib.Logic.Relation

/-!
# Programs behind pipes

A launcher runs a program to its end. This is how: a parent and a program take steps in any order,
joined by three pipes of bounded capacity.

* A thread of the parent writes the input and closes its end. It stops early if the program has
  closed the other end.
* The parent reads both outputs until they end, then waits for the program, then for the thread.
* The program does what its `Script` says; `Script.Runs` tells what it does on its own.

`Step` is one step of a run. Fields that nobody reads in a run are marked as history.
-/

namespace ConfigAudit

/-- The outputs of a program. -/
inductive Outlet
  | output
  | errors
  deriving DecidableEq, Repr

/-- What a read gives: some bytes, the end of the input, or nothing, as the program has closed its
input before. -/
inductive Received
  | data (bytes : List UInt8)
  | ended
  | closed
  deriving DecidableEq, Repr

/-- What a program does until it exits. It reads `limit` bytes at most, and what it reads may decide
how it goes on. -/
inductive Script
  | read (limit : ℕ+) (next : Received → Script)
  | write (outlet : Outlet) (bytes : List UInt8) (next : Script)
  | closeInput (next : Script)
  | closeOutlet (outlet : Outlet) (next : Script)
  | exit (status : ExitStatus)

namespace Script

/-- The pipes whose ends a program holds open. -/
structure Ends where
  input : Bool
  outlet : Outlet → Bool

/-- All pipes, as at the start of a program. -/
def Ends.all : Ends := ⟨true, fun _ => true⟩

/-- Bytes in front of what is written to an output. -/
def prepend (outlet : Outlet) (bytes : List UInt8) (written : Outlet → List UInt8) :
    Outlet → List UInt8 := Function.update written outlet (bytes ++ written outlet)

/-- What a program may write, and how it may exit, given the rest of its input. A read gives any
number of bytes up to its limit; writes to closed outputs are lost. -/
def Runs : Script → Ends → List UInt8 → (Outlet → List UInt8) → ExitStatus → Prop
  | .read limit next, ends, input, written, status =>
    if ends.input then
      (∃ bytes rest, input = bytes ++ rest ∧ bytes ≠ [] ∧ bytes.length ≤ limit ∧
        (next (.data bytes)).Runs ends rest written status) ∨
      input = [] ∧ (next .ended).Runs ends input written status
    else (next .closed).Runs ends input written status
  | .write outlet bytes next, ends, input, written, status =>
    if ends.outlet outlet then
      ∃ later, next.Runs ends input later status ∧ written = prepend outlet bytes later
    else next.Runs ends input written status
  | .closeInput next, ends, input, written, status =>
    next.Runs { ends with input := false } input written status
  | .closeOutlet outlet next, ends, input, written, status =>
    next.Runs { ends with outlet := Function.update ends.outlet outlet false } input written status
  | .exit ended, _, _, written, status => written = (fun _ => []) ∧ status = ended

/-- Whether what a program writes, and how it exits, depends on its input only and not on how much
of it each read gives. -/
def TimingIndependent (script : Script) (input : List UInt8) : Prop :=
  ∀ written status written' status', script.Runs .all input written status →
    script.Runs .all input written' status' → written = written' ∧ status = status'

/-- An act of a program that never looks at what it reads. -/
inductive Act
  | read (limit : ℕ+)
  | write (outlet : Outlet) (bytes : List UInt8)
  | closeInput
  | closeOutlet (outlet : Outlet)

/-- The program that does one act after the other. -/
def ofActs (status : ExitStatus) : List Act → Script
  | [] => .exit status
  | .read limit :: acts => .read limit fun _ => ofActs status acts
  | .write outlet bytes :: acts => .write outlet bytes (ofActs status acts)
  | .closeInput :: acts => .closeInput (ofActs status acts)
  | .closeOutlet outlet :: acts => .closeOutlet outlet (ofActs status acts)

/-- The program that reads its input to the end, as long as that takes `fuel` reads at most, and
goes on with what it has read. -/
def readAll (limit : ℕ+) (next : List UInt8 → Script) : ℕ → List UInt8 → Script
  | 0, seen => next seen
  | fuel + 1, seen => .read limit fun
    | .data bytes => readAll limit next fuel (seen ++ bytes)
    | .ended | .closed => next seen

end Script

namespace Pipes

/-- How many bytes the pipes to and from the program hold. -/
structure Capacities where
  input : ℕ+
  outlet : Outlet → ℕ+

/-- The thread that writes the input: it is at work, has written everything and closed its end, or
its pipe broke. -/
inductive Writer
  | writing (unsent : List UInt8)
  | finished
  | broken (unsent : List UInt8)
  deriving DecidableEq, Repr

namespace Writer

/-- What was not written. -/
def unsent : Writer → List UInt8
  | .writing unsent | .broken unsent => unsent
  | .finished => []

/-- How writing ended. -/
def result? : Writer → Option (Except IoError Unit)
  | .writing _ => none
  | .finished => some (.ok ())
  | .broken _ => some (.error .brokenPipe)

end Writer

/-- The pipe to the input of the program, which may have closed its end. As history, it has what the
program has read, and whether it has seen the end of the input. -/
structure Inflow where
  writer : Writer
  buffered : List UInt8
  isOpen : Bool
  read : List UInt8
  sawEnd : Bool

namespace Inflow

/-- A step of the writer: it writes as much as there is room for, or less, closes the pipe behind
the last byte, or breaks off as nobody reads any more. -/
inductive Feeds (capacity : ℕ+) : Inflow → Inflow → Prop
  | write {q bytes rest} (hwriter : q.writer = .writing (bytes ++ rest)) (hbytes : bytes ≠ [])
      (hopen : q.isOpen = true) (hroom : q.buffered.length + bytes.length ≤ capacity) :
      Feeds capacity q { q with writer := .writing rest, buffered := q.buffered ++ bytes }
  | finish {q} (hwriter : q.writer = .writing []) : Feeds capacity q { q with writer := .finished }
  | breakOff {q unsent} (hwriter : q.writer = .writing unsent) (hunsent : unsent ≠ [])
      (hclosed : q.isOpen = false) : Feeds capacity q { q with writer := .broken unsent }

/-- A read of the program. It waits for bytes while the writer is at work. -/
inductive Reads (limit : ℕ+) : Inflow → Received → Inflow → Prop
  | data {q bytes rest} (hopen : q.isOpen = true) (hbuffered : q.buffered = bytes ++ rest)
      (hbytes : bytes ≠ []) (hlimit : bytes.length ≤ limit) :
      Reads limit q (.data bytes) { q with buffered := rest, read := q.read ++ bytes }
  | ended {q result} (hopen : q.isOpen = true) (hbuffered : q.buffered = [])
      (hresult : q.writer.result? = some result) : Reads limit q .ended { q with sawEnd := true }
  | closed {q} (hclosed : q.isOpen = false) : Reads limit q .closed q

/-- The program closes its end. -/
def close (q : Inflow) : Inflow := { q with isOpen := false }

end Inflow

/-- The pipe from an output of the program, which may have closed its end, with what the parent has
read and whether it has seen the end. As history, it has what the program has written. -/
structure Outflow where
  isOpen : Bool
  buffered : List UInt8
  captured : List UInt8
  ended : Bool
  written : List UInt8

namespace Outflow

/-- A read of the parent. -/
inductive Drains : Outflow → Outflow → Prop
  | data {q bytes rest} (hended : q.ended = false) (hbuffered : q.buffered = bytes ++ rest)
      (hbytes : bytes ≠ []) :
      Drains q { q with buffered := rest, captured := q.captured ++ bytes }
  | finish {q} (hended : q.ended = false) (hbuffered : q.buffered = []) (hclosed : q.isOpen = false) :
      Drains q { q with ended := true }

/-- The program writes the first of its bytes, for which there has to be room. -/
inductive Accepts (capacity : ℕ+) : Outflow → List UInt8 → Outflow → Prop
  | write {q bytes} (hopen : q.isOpen = true) (hbytes : bytes ≠ [])
      (hroom : q.buffered.length + bytes.length ≤ capacity) :
      Accepts capacity q bytes
        { q with buffered := q.buffered ++ bytes, written := q.written ++ bytes }

/-- The program closes its end. -/
def close (q : Outflow) : Outflow := { q with isOpen := false }

end Outflow

/-- Where the program is. -/
inductive Child
  | running (script : Script)
  | exited (status : ExitStatus)

/-- Where the parent is: it reads the outputs, waits for the program, waits for its thread, or is
done. -/
inductive Parent
  | draining
  | waiting
  | joining (status : ExitStatus)
  | returned (status : ExitStatus)
  deriving DecidableEq, Repr

/-- A state of a run; the thread of the parent is part of the pipe to the program. -/
structure State where
  child : Child
  parent : Parent
  inflow : Inflow
  outflow : Outlet → Outflow

namespace State

/-- The state in which a program starts. -/
def start (script : Script) (input : List UInt8) : State where
  child := .running script
  parent := .draining
  inflow := ⟨.writing input, [], true, [], false⟩
  outflow := fun _ => ⟨true, [], [], false, []⟩

end State

section

variable (capacities : Capacities)

/-- A step of the parent: its thread goes on, or it reads an output, finds both outputs ended,
learns how the program exited, or finds its thread ended. -/
inductive ParentStep : State → State → Prop
  | feed {s q} (h : s.inflow.Feeds capacities.input q) : ParentStep s { s with inflow := q }
  | drain {s q} (outlet : Outlet) (hparent : s.parent = .draining)
      (h : (s.outflow outlet).Drains q) :
      ParentStep s { s with outflow := Function.update s.outflow outlet q }
  | drained {s} (hparent : s.parent = .draining) (h : ∀ outlet, (s.outflow outlet).ended = true) :
      ParentStep s { s with parent := .waiting }
  | reap {s status} (hparent : s.parent = .waiting) (hchild : s.child = .exited status) :
      ParentStep s { s with parent := .joining status }
  | join {s status result} (hparent : s.parent = .joining status)
      (hresult : s.inflow.writer.result? = some result) :
      ParentStep s { s with parent := .returned status }

/-- A step of the program. A write goes on as its bytes find room, and nothing is written to a
closed output. All ends are closed on exit. -/
inductive ChildStep : State → State → Prop
  | read {s limit next received q} (hchild : s.child = .running (.read limit next))
      (h : s.inflow.Reads limit received q) :
      ChildStep s { s with child := .running (next received), inflow := q }
  | write {s outlet bytes rest next q}
      (hchild : s.child = .running (.write outlet (bytes ++ rest) next))
      (h : (s.outflow outlet).Accepts (capacities.outlet outlet) bytes q) :
      ChildStep s
        { s with
          child := .running (.write outlet rest next)
          outflow := Function.update s.outflow outlet q }
  | written {s outlet next} (hchild : s.child = .running (.write outlet [] next)) :
      ChildStep s { s with child := .running next }
  | refused {s outlet bytes next} (hchild : s.child = .running (.write outlet bytes next))
      (hclosed : (s.outflow outlet).isOpen = false) :
      ChildStep s { s with child := .running next }
  | closeInput {s next} (hchild : s.child = .running (.closeInput next)) :
      ChildStep s { s with child := .running next, inflow := s.inflow.close }
  | closeOutlet {s outlet next} (hchild : s.child = .running (.closeOutlet outlet next)) :
      ChildStep s
        { s with
          child := .running next
          outflow := Function.update s.outflow outlet (s.outflow outlet).close }
  | exit {s status} (hchild : s.child = .running (.exit status)) :
      ChildStep s
        { s with
          child := .exited status
          inflow := s.inflow.close
          outflow := fun outlet => (s.outflow outlet).close }

/-- A step of a run: anyone who can go on may be next. -/
def Step (s t : State) : Prop := ParentStep capacities s t ∨ ChildStep capacities s t

/-- A state that a run may be in. -/
def Reachable (script : Script) (input : List UInt8) (s : State) : Prop :=
  Relation.ReflTransGen (Step capacities) (.start script input) s

end

end Pipes

/-- What a run comes to: the failure of the thread that writes the input, unless its pipe broke,
else the answer of the program. -/
def Completion.answerAfter (written : Except IoError Unit) (program : String) (c : Completion) :
    Except EngineError Json :=
  match written with
  | .ok () | .error .brokenPipe => c.answer program
  | .error cause => .error (.spawn program cause)

namespace Pipes.State

/-- What the parent returns. -/
def answer? (program : String) (s : State) : Option (Except EngineError Json) :=
  match s.parent, s.inflow.writer.result? with
  | .returned status, some written =>
    some (Completion.answerAfter written program
      ⟨status, (s.outflow .output).captured, (s.outflow .errors).captured⟩)
  | _, _ => none

end Pipes.State

end ConfigAudit
