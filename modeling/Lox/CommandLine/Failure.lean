import Lox.Text.Quoted
import Lox.Text.Utf8

/-!
# Failures of the command line

What can go wrong outside the programs: files that are not there and bytes that are no text.
-/

namespace Lox

/-- The system's reason for refusing a file. -/
inductive FileFault where
  | notFound
  | notPermitted
  | notADirectory
  | isADirectory
  | nameTooLong
  | other (message : String)
deriving DecidableEq

def FileFault.message : FileFault → String
  | notFound => "No such file or directory (os error 2)"
  | notPermitted => "Permission denied (os error 13)"
  | notADirectory => "Not a directory (os error 20)"
  | isADirectory => "Is a directory (os error 21)"
  | nameTooLong => "File name too long (os error 36)"
  | other message => message

inductive CommandFailure where
  | cannotOpen (path : String) (fault : FileFault)
  | cannotRead (path : String) (fault : FileFault)
  | notText (path : String) (malformed : Text.Malformed)
  | inputNotText
  | cannotLog (path : String) (fault : FileFault)
deriving DecidableEq

namespace CommandFailure

/-- What was being done. -/
def context : CommandFailure → String
  | cannotOpen path _ => "Failed to open file " ++ Text.quoted path
  | cannotRead path _ => "Failed to read file " ++ Text.quoted path
  | notText path _ => Text.quoted path ++ " is not valid UTF-8"
  | inputNotText => "Failed to read from stdin"
  | cannotLog path _ => "Failed to create " ++ Text.quoted path

def cause : CommandFailure → String
  | cannotOpen _ fault | cannotRead _ fault | cannotLog _ fault => fault.message
  | notText _ malformed => malformed.message
  | inputNotText => "stream did not contain valid UTF-8"

def display (f : CommandFailure) : String :=
  "Error: " ++ f.context ++ "\n\nCaused by:\n    " ++ f.cause ++ "\n"

/-- The exit status after a failure outside a program. -/
def exitCode : Nat := 1

end CommandFailure

end Lox
