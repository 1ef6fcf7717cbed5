import Lox.CommandLine

/-!
# The program

The command line on the files, the clock and the standard streams of the system.
-/

namespace Lox.Program

/-- More steps than a run can take. -/
def bound : Nat := Nat.pow 2 62

/-- The system's number of an error, which may be given as its negation. -/
def errorNumber (code : UInt32) : Nat := min code.toNat (-code).toNat

def fileFault (e : IO.Error) : FileFault :=
  match e with
  | .noFileOrDirectory .. => .notFound
  | .permissionDenied .. => .notPermitted
  | .inappropriateType _ code _ => if errorNumber code = 21 then .isADirectory else .notADirectory
  | .invalidArgument _ code _ => if errorNumber code = 36 then .nameTooLong else .other e.toString
  | .resourceExhausted .. => .other "Too many open files (os error 24)"
  | _ => .other e.toString

/-- The bytes of a file, or why there are none. -/
def readFile (path : String) : IO (Except CommandFailure (List UInt8)) := do
  match ← (IO.FS.readBinFile path).toBaseIO with
  | .ok bytes => return .ok bytes.toList
  | .error e =>
    match fileFault e with
    | .isADirectory => return .error (.cannotRead path .isADirectory)
    | fault => return .error (.cannotOpen path fault)

/-- Makes a log file that starts with a text. -/
def createLog (path text : String) : IO (Except CommandFailure Unit) := do
  match ← (IO.FS.writeFile path text).toBaseIO with
  | .ok () => return .ok ()
  | .error e => return .error (.cannotLog path (fileFault e))

def emit (report : Report) : IO Unit := do
  IO.print report.stdout
  (← IO.getStdout).flush
  IO.eprint report.stderr

def finish (report : Report) : IO UInt32 := do
  emit report
  return report.exitCode.toUInt32

/-- The bytes of the next line, after those in `line`. -/
partial def readLine (input : IO.FS.Stream) (line : ByteArray) : IO ByteArray := do
  let bytes ← input.read 1
  if bytes.isEmpty then return line
  else if bytes = ⟨#[0x0a]⟩ then return line ++ bytes
  else readLine input (line ++ bytes)

/-- Takes lines from standard input until one ends the interaction or there are no more. -/
partial def interact (s : Session) : IO UInt32 := do
  emit (.success Interaction.prompt)
  let line ← readLine (← IO.getStdin) .empty
  if line.isEmpty then return 0
  match Interaction.next bound line.toList s with
  | (report, none) => finish report
  | (report, some after) =>
    emit report
    interact after

def execute (now : Number) (command : Command) : IO UInt32 := do
  match command.path? with
  | none => interact (.start now)
  | some path =>
    match ← readFile path with
    | .ok bytes => finish (command.report bound now bytes)
    | .error failure => finish (.ofFailure failure)

end Lox.Program

def main (arguments : List String) : IO UInt32 := do
  let now := Lox.Number.nearest (← IO.monoMsNow) 1
  match Lox.Invocation.ofList? arguments with
  | none => Lox.Program.finish Lox.CommandLine.usage
  | some invocation =>
    match invocation.log? with
    | none => Lox.Program.execute now invocation.command
    | some (path, text) =>
      match ← Lox.Program.createLog path text with
      | .ok () => Lox.Program.execute now invocation.command
      | .error failure => Lox.Program.finish (.ofFailure failure)
