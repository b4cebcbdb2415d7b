import JamTokens.Lexer.Progress
import JamTokens.Output.Record
import JamTokens.Output.Sink
import JamTokens.Diagnostics.RunError
import JamTokens.Diagnostics.Log

/-!
# Printing the tokens of an input

Tokens are printed one after the other until the input ends.  The first
lexical error ends the run, unless errors are to be recovered from: then each
is reported, reading goes on behind the next line feed, and the run fails at
the end if anything was reported.  A failure of the input ends the run in
either case.
-/

set_option autoImplicit false

namespace JamTokens

namespace Sink

/-- Prints one token on a line of its own.  Only a failure inside the object
counts as a JSON failure; one at the end of the line does not. -/
def writeToken (s : Sink) (format : OutputFormat) (t : Token) (start : Position) :
    Except RunError Unit × Sink :=
  let record := TokenRecord.ofToken t start
  match format with
  | .plain =>
    match s.write (record.plain ++ "\n").toUTF8 with
    | (.ok (), s) => (.ok (), s)
    | (.error f, s) => (.error (.io f), s)
  | .json =>
    match s.write record.json.toUTF8 with
    | (.error f, s) => (.error (.json (.ofWords f.message)), s)
    | (.ok (), s) =>
      match s.write "\n".toUTF8 with
      | (.ok (), s) => (.ok (), s)
      | (.error f, s) => (.error (.io f), s)

end Sink

structure Printed where
  result : Except RunError Unit
  sink : Sink
  lexer : Lexer
  log : List LogEntry

def Printed.logged (entries : List LogEntry) (p : Printed) : Printed :=
  { p with log := entries ++ p.log }

namespace Lexer

variable [Counting]

/-- Passes on what the sink holds, then ends the run with a result. -/
def close (l : Lexer) (sink : Sink) (result : Except RunError Unit) (log : List LogEntry) : Printed :=
  match sink.flush with
  | (.ok (), sink) => ⟨result, sink, l, log⟩
  | (.error f, sink) => ⟨.error (.io f), sink, l, []⟩

/-- Prints the tokens that are left, after some tokens and errors have been counted. -/
def printFrom (format : OutputFormat) (recover : Bool) (l : Lexer) (sink : Sink)
    (tokens errors : Nat) : Printed :=
  match _h : l.read with
  | (.ok (some t), l') =>
    match sink.writeToken format t l'.position with
    | (.ok (), sink) => printFrom format recover l' sink (tokens + 1) errors
    | (.error e, sink) => ⟨.error e, sink, l', []⟩
  | (.ok none, l') =>
    l'.close sink (if errors = 0 then .ok () else .error (.recovered errors))
      [.reachedEnd tokens errors]
  | (.error e, l') =>
    if recover && !e.isInput then
      match _h' : l'.flush with
      | (.ok (), l'') =>
        (printFrom format recover l'' sink tokens (errors + 1)).logged
          [.reported e, .flushedLine l''.line]
      | (.error e', l'') => ⟨.error (.lex e'), sink, l'', [.reported e]⟩
    else (l'.close sink (.error (.lex e)) []).logged [.reported e]
termination_by l.work
decreasing_by
  all_goals
    have hread := l.read_work_lt (by simp [_h])
    rw [_h] at hread
  · exact hread
  · have hflush := l'.flush_work_le
    rw [_h'] at hflush
    exact Nat.lt_of_le_of_lt hflush hread

def print (format : OutputFormat) (recover : Bool) (l : Lexer) (sink : Sink) : Printed :=
  l.printFrom format recover sink 0 0

end Lexer

end JamTokens
