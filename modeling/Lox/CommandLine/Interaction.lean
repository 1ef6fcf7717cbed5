import Lox.CommandLine.Failure
import Lox.Session
import Lox.Text.Blank

/-!
# Interaction

A session that takes a line at a time. A line with a fault or an error is reported and the session
goes on; a blank line ends it.
-/

namespace Lox

/-- Text for the two outputs of a command, and its exit status. -/
structure Report where
  exitCode : Nat
  stdout : String
  stderr : String
deriving DecidableEq

namespace Report

/-- More output before that of a report. -/
def after (r : Report) (stdout stderr : String) : Report :=
  { r with stdout := stdout ++ r.stdout, stderr := stderr ++ r.stderr }

def ofFailure (f : CommandFailure) : Report := ⟨CommandFailure.exitCode, "", f.display⟩

/-- Each text on a line of its own. -/
def unlines (texts : List String) : String := String.join (texts.map (· ++ "\n"))

def ofError (e : Session.Error) : Report := ⟨e.exitCode, "", unlines e.lines⟩

def success (stdout : String) : Report := ⟨0, stdout, ""⟩

/-- What is reported when the bound on a run is too small. -/
def unfinished : Report := ⟨CommandFailure.exitCode, "", ""⟩

end Report

namespace Interaction

def prompt : String := "> "

/-- Runs one line: the report on it, and the session after it. -/
def step (bound : Nat) (line : String) (s : Session) : Report × Session :=
  match Session.run bound line (s.withOutput .unlimited) with
  | .ok () s => (.success s.printed, s)
  | .error e s => ((Report.ofError e).after s.printed "", s)
  | .exhausted => (.unfinished, s)

/-- The lines of an input. A line ends with a line feed, and a carriage return before that belongs
to the line's end. -/
def lines (bytes : List UInt8) : List (List UInt8) :=
  (go [] bytes).filter (· ≠ [])
where
  /-- The lines with their ends, when `line` has been read of the first, newest first. -/
  go (line : List UInt8) : List UInt8 → List (List UInt8)
    | [] => [line.reverse]
    | byte :: rest =>
      if byte = 0x0a then (byte :: line).reverse :: go [] rest else go (byte :: line) rest

/-- A line without its end. -/
def withoutEnd (line : String) : String :=
  if line.endsWith "\r\n" then (line.dropEnd 2).toString
  else if line.endsWith "\n" then (line.dropEnd 1).toString
  else line

/-- The report on a line and the session after it, unless the line ends the interaction. -/
def next (bound : Nat) (bytes : List UInt8) (s : Session) : Report × Option Session :=
  match Text.Utf8.decode bytes with
  | .error _ => (.ofFailure .inputNotText, none)
  | .ok line =>
    if Text.isBlankText line then (.success "", none)
    else
      let (report, after) := step bound (withoutEnd line) s
      (report, some after)

/-- Runs lines until one ends the interaction or there are no more. -/
def run (bound : Nat) (s : Session) : List (List UInt8) → Report
  | [] => .success prompt
  | bytes :: rest =>
    match next bound bytes s with
    | (report, none) => report.after prompt ""
    | (report, some after) => (run bound after rest).after (prompt ++ report.stdout) report.stderr

end Interaction

end Lox
