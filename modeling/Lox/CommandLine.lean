import Lox.CommandLine.Arguments
import Lox.CommandLine.FileSystem
import Lox.CommandLine.Interaction
import Lox.CommandLine.Log
import Lox.Syntax.Json
import Lox.Syntax.Printer

/-!
# The command line

The commands on the bytes of their file, and the whole command line on a file system.
-/

namespace Lox

namespace Command

/-- The tokens on one output and the faults on the other. -/
def tokenizeReport (source : String) : Report :=
  let scan := Scan.ofText source
  { exitCode := if scan.faults.isEmpty then 0 else Session.Error.rejectedCode
    stdout := Report.unlines (scan.tokens.map Token.display)
    stderr := Report.unlines (scan.faults.map Diagnostic.display) }

def parseReport (asJson : Bool) (source : String) : Report :=
  match (Reading.ofSource source 0).result with
  | .ok statements =>
    .success (Report.unlines
      (if asJson then [programJson statements] else statements.map Stmt.treeText))
  | .error faults => .ofError (.rejected faults)

def evaluateReport (bound : Nat) (now : Number) (source : String) : Report :=
  match Session.evaluate bound source (.start now) with
  | .ok value s => .success (s.printed ++ Report.unlines [value.display])
  | .error e s => (Report.ofError e).after s.printed ""
  | .exhausted => .unfinished

def runReport (bound : Nat) (now : Number) (source : String) : Report :=
  (Interaction.step bound source (.start now)).1

/-- What a command says of a file's bytes. -/
def report (bound : Nat) (now : Number) (command : Command) (bytes : List UInt8) : Report :=
  match Text.Utf8.decode bytes, command with
  | .error malformed, command => .ofFailure (.notText (command.path?.getD "") malformed)
  | .ok source, .tokenize _ => tokenizeReport source
  | .ok source, .parse _ asJson => parseReport asJson source
  | .ok source, .evaluate _ => evaluateReport bound now source
  | .ok source, .run _ => runReport bound now source
  | .ok _, .interact => Interaction.run bound (.start now) (Interaction.lines bytes)

end Command

namespace CommandLine

/-- What is said of arguments that cannot be understood. -/
def usage : Report where
  exitCode := 2
  stdout := ""
  stderr := "Usage: lox [--log] [--log-file PATH] COMMAND\n" ++
    "Commands: tokenize FILE, parse FILE [--json], evaluate FILE, run [FILE]\n"

/-- Runs a command on a file system, with `input` as standard input. -/
def runOn (bound : Nat) (now : Number) (fs : FileSystem) (input : List UInt8)
    (invocation : Invocation) : Except CommandFailure Report := do
  let fs ← match invocation.log? with
    | some (path, text) => fs.createLog path text
    | none => pure fs
  match invocation.command.path? with
  | some path => return invocation.command.report bound now (← fs.read path)
  | none => return Interaction.run bound (.start now) (Interaction.lines input)

/-- The command line in a directory with these files. -/
def run (bound : Nat) (now : Number) (files : List (String × List UInt8)) (input : List UInt8)
    (arguments : List String) : Report :=
  match Invocation.ofList? arguments with
  | none => usage
  | some invocation =>
    match runOn bound now (.ofFiles files input) input invocation with
    | .ok report => report
    | .error failure => .ofFailure failure

end CommandLine

end Lox
