import Lox.Evaluation
import Lox.Host
import Lox.Resolution
import Lox.Syntax.Program

/-!
# Sessions

A session runs one source text after the other on the same machine. A text is run only if reading
and resolving it find no fault. Node numbers go on from text to text, so that the depths recorded
for one program never stand for a node of another.
-/

namespace Lox

structure Session where
  machine : Machine
  nextId : NodeId

/-- Why a text was not run to its end. -/
inductive Session.Error where
  | rejected (faults : List Diagnostic)
  | failed (error : Failure)

/-- The exit status after a text that has a fault. -/
def Session.Error.rejectedCode : Nat := 65

/-- The exit status that a program ends with after an error. -/
def Session.Error.exitCode : Session.Error → Nat
  | rejected _ => rejectedCode
  | failed _ => 70

/-- The lines of an error report. -/
def Session.Error.lines : Session.Error → List String
  | rejected faults => faults.map Diagnostic.display
  | failed error => [error.display]

namespace Session

open Procedure

variable {α : Type}

/-- A new session at a time. -/
def start (now : Number) : Session := ⟨.withClock now, 0⟩

abbrev Step := Procedure Session Session.Error

/-- Takes what came of reading a text. -/
def accept (reading : NodeId → Reading α) : Step α := fun s =>
  let reading := reading s.nextId
  let after := { s with nextId := reading.nextId }
  match reading.result with
  | .ok tree => .ok tree after
  | .error faults => .error (.rejected faults) after

/-- Records the depths of a program's references, unless there are faults. -/
def addDepths (statements : List Stmt) : Step Unit :=
  match resolve statements with
  | .ok depths =>
    update fun s =>
      { s with machine := { s.machine with depths := s.machine.depths.insertMany depths } }
  | .error faults => fail (.rejected faults)

/-- A part of a run on the session's machine. -/
def onMachine (x : Run α) : Step α := fun s =>
  let nextId := s.nextId
  match x s.machine with
  | .ok a machine => .ok a ⟨machine, nextId⟩
  | .error e machine => .error (.failed e) ⟨machine, nextId⟩
  | .exhausted => .exhausted

/-- Reads, resolves and runs a source text. -/
def run (bound : Nat) (source : String) : Step Unit := do
  let statements ← accept (Reading.ofSource source)
  addDepths statements
  onMachine (runProgram bound statements)

/-- Reads a source text as an expression and evaluates it, with every name global. -/
def evaluate (bound : Nat) (source : String) : Step Value := do
  let e ← accept (Reading.expressionOfSource source)
  onMachine (e.evaluate bound)

/-- The text printed so far. -/
def printed (s : Session) : String := s.machine.output.text

/-- The session with another output, which is empty. -/
def withOutput (s : Session) (output : Output) : Session :=
  { s with machine := { s.machine with output } }

end Session

/-- Reads and resolves a source text without running it. -/
def check (source : String) : Except (List Diagnostic) Unit := do
  let statements ← (Reading.ofSource source 0).result
  let _ ← resolve statements
  return ()

end Lox
