import JamTokens.Lexer.Error
import JamTokens.Text.Terminal

/-!
# The log of a run

A run reports what it does as it goes on.  An entry has a level, a message and
named values; entries for debugging are shown only on request.  The message is
made safe for a terminal, and the values are shown as they are.
-/

set_option autoImplicit false

namespace JamTokens

inductive LogLevel
  | error | info | debug
  deriving DecidableEq, Repr

def LogLevel.name : LogLevel → String
  | .error => "ERROR"
  | .info => "INFO"
  | .debug => "DEBUG"

/-- The number of the terminal colour in which a level is shown. -/
def LogLevel.color : LogLevel → Nat
  | .error => 31
  | .info => 32
  | .debug => 34

inductive LogEntry
  | lexingFile (path : String)
  | lexingStandardInput
  | openedFile (path : String)
  | reported (e : LexError)
  | flushedLine (line : Nat)
  | reachedEnd (tokens errors : Nat)
  | savedConfig (path : String)
  deriving DecidableEq, Repr

namespace LogEntry

def level : LogEntry → LogLevel
  | lexingFile _ => .info
  | lexingStandardInput => .info
  | openedFile _ => .debug
  | reported _ => .error
  | flushedLine _ => .debug
  | reachedEnd .. => .debug
  | savedConfig _ => .info

def message : LogEntry → String
  | lexingFile _ => "lexing file"
  | lexingStandardInput => "lexing standard input"
  | openedFile _ => "opened source file"
  | reported e => e.message
  | flushedLine _ => "flushed input to end of line"
  | reachedEnd .. => "reached end of input"
  | savedConfig _ => "configuration saved"

def values : LogEntry → List (String × String)
  | lexingFile path => [("path", path)]
  | lexingStandardInput => []
  | openedFile path => [("path", path)]
  | reported _ => []
  | flushedLine line => [("line", toString line)]
  | reachedEnd tokens errors => [("tokens", toString tokens), ("errors", toString errors)]
  | savedConfig path => [("path", path)]

def text (entry : LogEntry) : String :=
  " ".intercalate (Terminal.shown entry.message ::
    entry.values.map fun (name, value) => s!"{name}={value}")

def isShown (verbose : Bool) (entry : LogEntry) : Bool := verbose || entry.level != .debug

def line (entry : LogEntry) : String := s!"{entry.level.name} {entry.text}"

def coloredLine (entry : LogEntry) : String :=
  s!"\x1b[{entry.level.color}m{entry.level.name}\x1b[0m {entry.text}"

end LogEntry

end JamTokens
