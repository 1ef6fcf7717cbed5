import Lox.CommandLine.Arguments
import Lox.Text.Quoted

/-!
# The log

The log up to the moment when a command opens its file, which may be the log itself.
-/

namespace Lox

/-- What is worth an entry of the log. -/
inductive LogEntry where
  | opened (path : String)
  | invoked (command : Command) (path : String)
  | reading (path : String)
  | interacting
deriving DecidableEq

namespace LogEntry

/-- A name and the fields that belong to it, in braces. -/
def record (name : String) (fields : List (String × String)) : String :=
  name ++ " \x7b " ++ ", ".intercalate (fields.map fun (field, value) => field ++ ": " ++ value) ++
    " \x7d"

def commandText : Command → String
  | .tokenize path => record "Tokenize" [("filename", Text.quoted path)]
  | .parse path asJson => record "Parse" [("filename", Text.quoted path), ("json", toString asJson)]
  | .evaluate path => record "Evaluate" [("filename", Text.quoted path)]
  | .run path => record "Run" [("filename", "Some(" ++ Text.quoted path ++ ")")]
  | .interact => record "Run" [("filename", "None")]

/-- The number by which the log tells kinds of entries apart. -/
def number : LogEntry → Nat
  | opened _ => 102
  | invoked .. => 244
  | reading _ => 57
  | interacting => 203

def message : LogEntry → String
  | opened path => "Logger initialized, writing to " ++ Text.quoted path
  | invoked command path =>
    "CLI arguments: " ++ record "Cli"
      [("commands", commandText command), ("log", "true"), ("log_file", Text.quoted path)]
  | reading path => "Reading file: " ++ Text.quoted path
  | interacting => "Starting REPL"

/-- The line of an entry, under the name of the program. -/
def line (entry : LogEntry) : String :=
  "[rox:" ++ toString entry.number ++ "] - " ++ entry.message ++ "\n"

end LogEntry

namespace Invocation

/-- What is logged to a path by the time the file is opened. -/
def entries (path : String) (command : Command) : List LogEntry :=
  [.opened path, .invoked command path, (command.path?.map .reading).getD .interacting]

/-- The log file, and what stands in it by the time the file is opened. -/
def log? (invocation : Invocation) : Option (String × String) :=
  invocation.logPath.map fun path =>
    (path, String.join ((entries path invocation.command).map LogEntry.line))

end Invocation

end Lox
