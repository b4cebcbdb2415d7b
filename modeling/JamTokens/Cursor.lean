import JamTokens.Source.Feed
import JamTokens.Text.Position

/-!
# The cursor

A cursor hands out the characters of a source one by one and knows where the
next one stands.  Looking further than the next character is possible only
within the buffered segment and never asks the source.

An operation that fails leaves the position alone; reading may go on.
-/

set_option autoImplicit false

namespace JamTokens

structure Cursor where
  feed : Feed
  position : Position
  deriving DecidableEq, Repr

namespace Cursor

def ofFeed (feed : Feed) : Cursor := ⟨feed, .start⟩

def ofSource (source : Source) : Cursor := ofFeed source.feed

variable [Counting]

def pass (c : Cursor) (r : Feed.Run) : Cursor := ⟨r.rest, c.position.after r.taken⟩

/-- The next character, which stays unread; nothing at the end of input. -/
def current (c : Cursor) : Except Failure (Option Char) × Cursor :=
  match c.feed.fill with
  | (some f, rest) => (.error f, { c with feed := rest })
  | (none, rest) => (.ok rest.buffered.head?, { c with feed := rest })

/-- The character `k` places after the next one, if it lies in the buffer. -/
def peek (c : Cursor) (k : Nat) : Option Char := c.feed.buffered[k]?

def advance (c : Cursor) : Except Failure (Option Char) × Cursor :=
  match c.feed.fill with
  | (some f, rest) => (.error f, { c with feed := rest })
  | (none, .char ch :: rest) => (.ok (some ch), ⟨rest, c.position.step ch⟩)
  | (none, rest) => (.ok none, { c with feed := rest })

def accept (c : Cursor) (expected : Char) : Except Failure Bool × Cursor :=
  match c.current with
  | (.error f, c) => (.error f, c)
  | (.ok next, c) =>
    if next = some expected then
      match c.advance with
      | (.error f, c) => (.error f, c)
      | (.ok _, c) => (.ok true, c)
    else (.ok false, c)

/-- Reads everything through the next line feed, or to the end of input. -/
def skipLine (c : Cursor) : Except Failure Unit × Cursor :=
  let run := c.feed.takeLine
  match run.failure with
  | some f => (.error f, c.pass run)
  | none => (.ok (), c.pass run)

def atEnd (c : Cursor) : Except Failure Bool × Cursor :=
  match c.current with
  | (.error f, c) => (.error f, c)
  | (.ok next, c) => (.ok next.isNone, c)

end Cursor

end JamTokens
