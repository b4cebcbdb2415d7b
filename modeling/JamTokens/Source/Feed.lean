import JamTokens.Source.Event

/-!
# The feed of a source

A source is read one segment at a time, and a segment reaches at most to the
end of a line.  It ends right after a line feed, at a pause, at a failure, or
where the source ends.  Interrupted reads are repeated and never seen.

The feed of a source is the sequence of its segments, decoded.  Each begins
with a `refill`: the point at which the buffer is empty and the source is
asked again.  A segment that a failure ends begins with that failure, and its
text, if it decodes, is still delivered afterwards.  A segment that is not
UTF-8 delivers nothing but the failure.  A pause with nothing before it
closes the feed: what the source would do later is never asked for.
-/

set_option autoImplicit false

namespace JamTokens

inductive Signal
  /-- A character of the segment that has been asked for last. -/
  | char (c : Char)
  /-- The buffer ends here; asking for more fails first if a failure is given. -/
  | refill (failure : Option Failure)
  /-- The input has ended for good. -/
  | close
  deriving DecidableEq, Repr

abbrev Feed := List Signal

def Feed.ofText (text : List Char) : Feed := text.map .char

namespace Source

/-- One segment: its bytes and the failure that ended it, if one did. -/
def segment (bytes : List UInt8) (failure : Option Failure) : Feed :=
  match Utf8.decode? bytes with
  | some text => .refill failure :: Feed.ofText text
  | none => [.refill (some (failure.getD .invalidText))]

/-- The feed of a source of which `collected` has been read since the last
segment ended, latest byte first. -/
def feedFrom (collected : List UInt8) : Source → Feed
  | .byte b :: rest =>
    if b = 10 then segment (b :: collected).reverse none ++ feedFrom [] rest
    else feedFrom (b :: collected) rest
  | .pause :: rest =>
    if collected = [] then .close :: feedFrom [] rest
    else segment collected.reverse none ++ feedFrom [] rest
  | .failure f :: rest =>
    if f.kind = .interrupted then feedFrom collected rest
    else segment collected.reverse (some f) ++ feedFrom [] rest
  | [] => if collected = [] then [] else segment collected.reverse none

def feed (source : Source) : Feed := feedFrom [] source

end Source

namespace Feed

/-- What has been taken from a feed, the failure that cut it short, and the rest. -/
structure Run where
  taken : List Char
  failure : Option Failure
  rest : Feed
  deriving DecidableEq, Repr

def Run.cons (c : Char) (r : Run) : Run := { r with taken := c :: r.taken }

/-- Asks the source again if the buffer is empty. -/
def fill : Feed → Option Failure × Feed
  | .refill none :: rest => fill rest
  | .refill (some f) :: rest => (some f, rest)
  | feed => (none, feed)

def buffered : Feed → List Char
  | .char c :: rest => c :: buffered rest
  | _ => []

/-- Takes characters as long as `step` accepts them, from one state to the next. -/
def takeSteps {σ : Type} (step : σ → Char → Option σ) : σ → Feed → Run
  | s, .char c :: rest =>
    match step s c with
    | some s' => (takeSteps step s' rest).cons c
    | none => ⟨[], none, .char c :: rest⟩
  | s, .refill none :: rest => takeSteps step s rest
  | _, .refill (some f) :: rest => ⟨[], some f, rest⟩
  | _, .close :: rest => ⟨[], none, .close :: rest⟩
  | _, [] => ⟨[], none, []⟩

/-- Takes everything through the next line feed, or to the end of input. -/
def takeLine : Feed → Run
  | .char c :: rest => if c = '\n' then ⟨[c], none, rest⟩ else (takeLine rest).cons c
  | .refill none :: rest => takeLine rest
  | .refill (some f) :: rest => ⟨[], some f, rest⟩
  | .close :: rest => ⟨[], none, .close :: rest⟩
  | [] => ⟨[], none, []⟩

end Feed

end JamTokens
