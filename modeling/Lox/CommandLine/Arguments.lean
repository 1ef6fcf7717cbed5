/-!
# Arguments

What the arguments of the command line ask for. The options about the log may stand before the
command and after it, once in each place, and those after it count. A lone dash is a word, and so is
all that follows a double dash.
-/

namespace Lox

inductive Command where
  | tokenize (path : String)
  | parse (path : String) (asJson : Bool)
  | evaluate (path : String)
  | run (path : String)
  | interact
deriving DecidableEq

namespace Command

/-- The file that a command reads. -/
def path? : Command → Option String
  | tokenize path | parse path _ | evaluate path | run path => some path
  | interact => none

end Command

/-- An argument with its value. -/
inductive Argument where
  | log
  | logFile (path : String)
  | json
  | separator
  | word (text : String)
deriving DecidableEq

namespace Argument

/-- Whether a text is taken for an option. -/
def looksLikeOption (text : String) : Bool := text.startsWith "-" && text ≠ "-"

/-- How the option for the log file begins when its value is part of it. -/
def logFileStart : String := "--log-file="

/-- Tells options, their values and words apart. An option that is not known is refused, and so is
one without its value. -/
def ofList? : List String → Option (List Argument)
  | [] => some []
  | "--" :: rest => some (separator :: rest.map word)
  | "--log" :: rest => (ofList? rest).map (log :: ·)
  | "--json" :: rest => (ofList? rest).map (json :: ·)
  | ["--log-file"] => none
  | "--log-file" :: path :: rest =>
    if looksLikeOption path then none else (ofList? rest).map (logFile path :: ·)
  | text :: rest =>
    if text.startsWith logFileStart then
      (ofList? rest).map (logFile (text.drop logFileStart.length).toString :: ·)
    else if looksLikeOption text then none
    else (ofList? rest).map (word text :: ·)

def isOption : Argument → Bool
  | log | logFile _ | json => true
  | separator | word _ => false

def path? : Argument → Option String
  | logFile path => some path
  | _ => none

def word? : Argument → Option String
  | word text => some text
  | _ => none

end Argument

/-- What the options in one place say. -/
structure Options where
  logs : Bool
  logPath : Option String
  asJson : Bool
deriving DecidableEq

/-- The options among these arguments. None may stand twice, and a path may not be empty. -/
def Options.ofArguments? (arguments : List Argument) : Option Options :=
  let paths := arguments.filterMap Argument.path?
  if arguments.count .log ≤ 1 ∧ arguments.count .json ≤ 1 ∧ paths.length ≤ 1 ∧ "" ∉ paths then
    some ⟨.log ∈ arguments, paths.head?, .json ∈ arguments⟩
  else none

/-- The command of this name for these paths. -/
def Command.ofWords? (name : String) (paths : List String) (asJson : Bool) : Option Command :=
  if "" ∈ paths then none
  else match name, paths, asJson with
    | "tokenize", [path], false => some (.tokenize path)
    | "parse", [path], asJson => some (.parse path asJson)
    | "evaluate", [path], false => some (.evaluate path)
    | "run", [path], false => some (.run path)
    | "run", [], false => some .interact
    | _, _, _ => none

/-- A command, and the file to log to. -/
structure Invocation where
  command : Command
  logPath : Option String
deriving DecidableEq

namespace Invocation

def defaultLogPath : String := "app.log"

/-- What a list of arguments asks for, if it can be understood. -/
def ofList? (texts : List String) : Option Invocation := do
  let arguments ← Argument.ofList? texts
  let before ← Options.ofArguments? (arguments.takeWhile Argument.isOption)
  match arguments.dropWhile Argument.isOption with
  | .word name :: rest =>
    let after ← Options.ofArguments? rest
    let command ← Command.ofWords? name (rest.filterMap Argument.word?) after.asJson
    let path := (after.logPath.or before.logPath).getD defaultLogPath
    if before.asJson then none
    else return ⟨command, if before.logs || after.logs then some path else none⟩
  | _ => none

end Invocation

end Lox
