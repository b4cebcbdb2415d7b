import JamTokens.Lexeme
import JamTokens.Cursor

/-!
# The scanner

The scanner reads lexemes from a cursor.  Between lexemes it skips blanks and
comments; a comment is opened by two slashes side by side in the buffer and
runs through the end of its line.  One lexeme can be handed back, and is then
read again together with the position at which it starts.

A read that fails keeps nothing of what it has taken: characters before the
failure are gone, and reading goes on behind it.
-/

set_option autoImplicit false

namespace JamTokens

open CharClass

namespace Feed

/-- Takes blanks and comments.  The flag tells whether a comment is open. -/
def takeGap : Bool → Feed → Run
  | true, .char c :: rest => (takeGap (c != '\n') rest).cons c
  | false, .char c :: rest =>
    if isBlank c then (takeGap false rest).cons c
    else if c = '/' && rest.head? = some (.char '/') then (takeGap true rest).cons c
    else ⟨[], none, .char c :: rest⟩
  | inComment, .refill none :: rest => takeGap inComment rest
  | _, .refill (some f) :: rest => ⟨[], some f, rest⟩
  | _, .close :: rest => ⟨[], none, .close :: rest⟩
  | _, [] => ⟨[], none, []⟩

end Feed

structure Scanner where
  cursor : Cursor
  /-- The lexeme handed back, with its start. -/
  returned : Option (Lexeme × Position)
  start : Position
  deriving DecidableEq, Repr

namespace Scanner

def ofFeed (feed : Feed) : Scanner := ⟨Cursor.ofFeed feed, none, .start⟩

def ofSource (source : Source) : Scanner := ofFeed source.feed

def line (s : Scanner) : Nat := s.cursor.position.line

variable [Counting]

/-- Ends a word or a number: its text, unless a failure cut it short. -/
def finish (s : Scanner) (make : String → Lexeme) (run : Feed.Run) : Except Failure Lexeme × Scanner :=
  let s' := { s with cursor := s.cursor.pass run }
  match run.failure with
  | some f => (.error f, s')
  | none => (.ok (make (String.ofList run.taken)), s')

/-- A number starts with a digit, or with a point that a buffered digit follows. -/
def startsNumber (c : Char) (rest : Feed) : Bool :=
  isDigit c || (c == '.' && rest.buffered.head?.any isDigit)

def scan (s : Scanner) : Except Failure Lexeme × Scanner :=
  let s := { s with start := s.cursor.position }
  match s.cursor.feed with
  | .char c :: rest =>
    if isWordStart c then
      s.finish .word (s.cursor.feed.takeSteps Lexeme.wordStep ())
    else if startsNumber c rest then
      s.finish .number (s.cursor.feed.takeSteps Lexeme.numberStep false)
    else (.ok (.char c), { s with cursor := ⟨rest, s.cursor.position.step c⟩ })
  | _ => (.ok .endOfInput, s)

def next (s : Scanner) : Except Failure Lexeme × Scanner :=
  match s.returned with
  | some (lexeme, start) => (.ok lexeme, { s with returned := none, start := start })
  | none =>
    let gap := s.cursor.feed.takeGap false
    let s := { s with cursor := s.cursor.pass gap }
    match gap.failure with
    | some f => (.error f, s)
    | none => s.scan

/-- Hands a lexeme back, as starting where the latest one does. -/
def handBack (s : Scanner) (lexeme : Lexeme) : Scanner :=
  { s with returned := some (lexeme, s.start) }

def flush (s : Scanner) : Except Failure Unit × Scanner :=
  let (result, cursor) := s.cursor.skipLine
  (result, { s with cursor := cursor, returned := none })

end Scanner

end JamTokens
