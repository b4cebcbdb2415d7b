import JamTokens.Proofs.Delivery

/-!
# The stream that a cursor reads

A source stands for a stream of characters and failures.  Its interrupted reads
are left out and the rest is cut into segments, right behind each line feed,
each pause and each failure.  A segment contributes what it decodes to, behind
the failure that ended it; if it is no text, it contributes a failure only.
Where a pause comes with nothing before it the stream ends, whatever follows.

A cursor cannot be told from a reader of that stream: calls in any order and
number return the same and leave both at the same position.
-/

set_option autoImplicit false

namespace JamTokens

/-- What is met one after the other; then nothing for ever. -/
abbrev CharStream := List (Except Failure Char)

/-! ## Segments -/

inductive Ending
  | lineFeed
  | pause
  | failure (f : Failure)
  | sourceEnd
  deriving DecidableEq, Repr

def Ending.failure? : Ending → Option Failure
  | failure f => some f
  | _ => none

structure Segment where
  bytes : List UInt8
  ending : Ending
  deriving DecidableEq, Repr

namespace Segment

def begun (bytes : List UInt8) : List Segment → List Segment
  | [] => if bytes = [] then [] else [⟨bytes, .sourceEnd⟩]
  | s :: later => ⟨bytes ++ s.bytes, s.ending⟩ :: later

def stream (s : Segment) : CharStream :=
  match Utf8.decode? s.bytes, s.ending.failure? with
  | some text, none => text.map .ok
  | some text, some f => .error f :: text.map .ok
  | none, none => [.error .invalidText]
  | none, some f => [.error f]

end Segment

/-- Nothing before a pause ends the stream for good. -/
def CharStream.ofSegments : List Segment → CharStream
  | [] => []
  | s :: later => if s = ⟨[], .pause⟩ then [] else s.stream ++ ofSegments later

namespace Source

def uninterrupted (source : Source) : Source :=
  source.filter fun
    | .failure f => f.kind != .interrupted
    | _ => true

/-- The source cut behind each line feed, each pause and each failure. -/
def segments : Source → List Segment
  | [] => []
  | .byte b :: rest =>
    if b = 10 then ⟨[b], .lineFeed⟩ :: segments rest else Segment.begun [b] (segments rest)
  | .pause :: rest => ⟨[], .pause⟩ :: segments rest
  | .failure f :: rest => ⟨[], .failure f⟩ :: segments rest

def stream (source : Source) : CharStream := .ofSegments source.uninterrupted.segments

end Source

/-! ## Calls of a cursor -/

namespace Cursor

/-- The calls that meet one character at most. -/
inductive Look
  | current
  | advance
  | accept (expected : Char)
  | atEnd
  deriving DecidableEq, Repr

inductive Call
  | look (k : Look)
  | skipLine
  deriving DecidableEq, Repr

inductive Reply
  | char (c : Option Char)
  | flag (b : Bool)
  | done
  deriving DecidableEq, Repr

namespace Look

def takes : Look → Char → Bool
  | current, _ => false
  | advance, _ => true
  | accept expected, c => c == expected
  | atEnd, _ => false

def reply : Look → Option Char → Reply
  | current, next => .char next
  | advance, next => .char next
  | accept expected, next => .flag (next == some expected)
  | atEnd, next => .flag next.isNone

end Look

def look (c : Cursor) : Look → Except Failure Reply × Cursor
  | .current => (c.current.1.map .char, c.current.2)
  | .advance => (c.advance.1.map .char, c.advance.2)
  | .accept expected => ((c.accept expected).1.map .flag, (c.accept expected).2)
  | .atEnd => (c.atEnd.1.map .flag, c.atEnd.2)

def call (c : Cursor) : Call → Except Failure Reply × Cursor
  | .look k => c.look k
  | .skipLine => (c.skipLine.1.map fun _ => .done, c.skipLine.2)

def replies (c : Cursor) : List Call → List (Except Failure Reply × Position)
  | [] => []
  | k :: calls => ((c.call k).1, (c.call k).2.position) :: (c.call k).2.replies calls

end Cursor

/-! ## Reading a stream -/

/-- What is unread of a stream, and where its first character stands. -/
structure Tape where
  unread : CharStream
  position : Position

namespace Tape

open Cursor (Look Reply)

/-- Meets the head of the stream.  A failure there is used up and returned. -/
def look (t : Tape) (k : Look) : Except Failure Reply × Tape :=
  match t.unread with
  | [] => (.ok (k.reply none), t)
  | .error f :: rest => (.error f, { t with unread := rest })
  | .ok c :: rest =>
    (.ok (k.reply (some c)), if k.takes c then ⟨rest, t.position.step c⟩ else t)

/-- Takes characters through the next line feed, but none behind a failure. -/
def skipLine : CharStream → Position → Except Failure Reply × Tape
  | [], p => (.ok .done, ⟨[], p⟩)
  | .error f :: rest, p => (.error f, ⟨rest, p⟩)
  | .ok c :: rest, p =>
    if c = '\n' then (.ok .done, ⟨rest, p.step c⟩) else skipLine rest (p.step c)

def call (t : Tape) : Cursor.Call → Except Failure Reply × Tape
  | .look k => t.look k
  | .skipLine => skipLine t.unread t.position

def replies (t : Tape) : List Cursor.Call → List (Except Failure Reply × Position)
  | [] => []
  | k :: calls => ((t.call k).1, (t.call k).2.position) :: (t.call k).2.replies calls

theorem replies_advance_nothing (p : Position) (n : Nat) :
    (replies ⟨[], p⟩ (List.replicate n (.look .advance))).map Prod.fst =
      List.replicate n (.ok (.char none)) := by
  induction n with
  | zero => rfl
  | succ n ih =>
      rw [List.replicate_succ, List.replicate_succ, replies, List.map_cons]
      exact congrArg _ ih

theorem replies_advance (unread : CharStream) (p : Position) (n : Nat) :
    (replies ⟨unread, p⟩ (List.replicate (unread.length + n) (.look .advance))).map Prod.fst =
      unread.map (Except.map fun c => .char (some c)) ++
        List.replicate n (.ok (.char none)) := by
  induction unread generalizing p with
  | nil =>
      rw [List.length_nil, Nat.zero_add]
      exact replies_advance_nothing p n
  | cons head rest ih =>
      have longer : (head :: rest).length + n = rest.length + n + 1 := by
        rw [List.length_cons, Nat.add_right_comm]
      rw [longer, List.replicate_succ, replies, List.map_cons, List.map_cons, List.cons_append]
      cases head with
      | error f => exact congrArg _ (ih p)
      | ok c => exact congrArg _ (ih (p.step c))

end Tape

/-! ## The stream of a feed -/

namespace Feed

def stream : Feed → CharStream
  | .char c :: rest => .ok c :: stream rest
  | .refill none :: rest => stream rest
  | .refill (some f) :: rest => .error f :: stream rest
  | .close :: _ => []
  | [] => []

theorem stream_ofText_append (text : List Char) (feed : Feed) :
    (ofText text ++ feed).stream = text.map .ok ++ feed.stream := by
  induction text with
  | nil => rfl
  | cons c text ih => exact congrArg (Except.ok c :: ·) ih

theorem Ended.stream_eq {feed : Feed} (h : feed.Ended) : feed.stream = [] := by
  rcases h.eq with rfl | ⟨rest, rfl⟩
  · rfl
  · rfl

theorem Ended.buffered_eq {feed : Feed} (h : feed.Ended) : feed.buffered = [] := by
  rcases h.eq with rfl | ⟨rest, rfl⟩
  · rfl
  · rfl

inductive Finds (feed : Feed) : Prop
  | failure {f : Failure} {rest : Feed} (filled : feed.fill = (some f, rest))
      (stream : feed.stream = .error f :: rest.stream)
  | char {c : Char} {rest : Feed} (filled : feed.fill = (none, .char c :: rest))
      (stream : feed.stream = .ok c :: rest.stream)
  | nothing {rest : Feed} (filled : feed.fill = (none, rest)) (ended : rest.Ended)
      (stream : feed.stream = [])

theorem finds (feed : Feed) : feed.Finds := by
  fun_induction fill feed with
  | case1 rest ih =>
      cases ih with
      | failure filled stream => exact .failure (by rwa [fill]) (by rwa [Feed.stream])
      | char filled stream => exact .char (by rwa [fill]) (by rwa [Feed.stream])
      | nothing filled ended stream => exact .nothing (by rwa [fill]) ended (by rwa [Feed.stream])
  | case2 f rest => exact .failure rfl rfl
  | case3 feed notRefill notFailing =>
      match feed with
      | [] => exact .nothing rfl trivial rfl
      | .close :: rest => exact .nothing rfl trivial rfl
      | .char c :: rest => exact .char rfl rfl
      | .refill none :: rest => exact absurd rfl (notRefill rest)
      | .refill (some f) :: rest => exact absurd rfl (notFailing f rest)

theorem skipLine_stream (feed : Feed) (p : Position) :
    Tape.skipLine feed.stream p =
      (match feed.takeLine.failure with
        | some f => .error f
        | none => .ok .done,
      ⟨feed.takeLine.rest.stream, p.after feed.takeLine.taken⟩) := by
  fun_induction takeLine feed generalizing p with
  | case1 rest => rfl
  | case2 c rest other ih =>
      rw [stream, Tape.skipLine, if_neg other, ih]
      rfl
  | case3 rest ih => exact ih p
  | case4 f rest => rfl
  | case5 rest => rfl
  | case6 => rfl

end Feed

/-! ## The stream of a source -/

namespace Segment

theorem begun_nil (segments : List Segment) : begun [] segments = segments := by
  cases segments with
  | nil => rfl
  | cons s later => rfl

theorem begun_begun (bytes more : List UInt8) (segments : List Segment) :
    begun bytes (begun more segments) = begun (bytes ++ more) segments := by
  cases segments with
  | nil => cases more <;> simp [begun]
  | cons s later => simp [begun]

end Segment

namespace Source

theorem stream_segment (s : Segment) (feed : Feed) :
    (segment s.bytes s.ending.failure? ++ feed).stream = s.stream ++ feed.stream := by
  unfold segment Segment.stream
  cases Utf8.decode? s.bytes with
  | none => cases s.ending.failure? <;> rfl
  | some text =>
      cases s.ending.failure? with
      | none => exact Feed.stream_ofText_append text feed
      | some f => exact congrArg (Except.error f :: ·) (Feed.stream_ofText_append text feed)

theorem stream_segment_append (s : Segment) {feed : Feed} {later : List Segment}
    (proper : s ≠ ⟨[], .pause⟩) (behind : feed.stream = .ofSegments later) :
    (segment s.bytes s.ending.failure? ++ feed).stream = .ofSegments (s :: later) := by
  rw [stream_segment, behind, CharStream.ofSegments, if_neg proper]

theorem uninterrupted_byte (b : UInt8) (rest : Source) :
    uninterrupted (.byte b :: rest) = .byte b :: uninterrupted rest := rfl

theorem uninterrupted_pause (rest : Source) :
    uninterrupted (.pause :: rest) = .pause :: uninterrupted rest := rfl

theorem uninterrupted_interrupted {f : Failure} (again : f.kind = .interrupted) (rest : Source) :
    uninterrupted (.failure f :: rest) = uninterrupted rest := by
  simp [uninterrupted, again]

theorem uninterrupted_failure {f : Failure} (final : f.kind ≠ .interrupted) (rest : Source) :
    uninterrupted (.failure f :: rest) = .failure f :: uninterrupted rest := by
  simp [uninterrupted, final]

-- The induction goes event by event; what has been collected begins the next segment.
theorem stream_feedFrom (source : Source) (collected : List UInt8) :
    (feedFrom collected source).stream =
      .ofSegments (Segment.begun collected.reverse source.uninterrupted.segments) := by
  induction source generalizing collected with
  | nil =>
      by_cases nothing : collected = []
      · subst nothing
        rfl
      · have proper : collected.reverse ≠ [] := by simpa using nothing
        have last : (segment collected.reverse none ++ []).stream =
            .ofSegments [⟨collected.reverse, .sourceEnd⟩] :=
          stream_segment_append ⟨collected.reverse, .sourceEnd⟩ (by simp) rfl
        rw [List.append_nil] at last
        rw [feedFrom, if_neg nothing, show uninterrupted [] = [] from rfl, segments, Segment.begun,
          if_neg proper]
        exact last
  | cons event rest ih =>
      have behind : (feedFrom [] rest).stream = .ofSegments (uninterrupted rest).segments := by
        rw [ih, List.reverse_nil, Segment.begun_nil]
      cases event with
      | byte b =>
          rw [uninterrupted_byte, segments, feedFrom]
          by_cases newline : b = 10
          · rw [if_pos newline, if_pos newline, List.reverse_cons]
            exact stream_segment_append ⟨_, .lineFeed⟩ (by simp) behind
          · rw [if_neg newline, if_neg newline, ih, List.reverse_cons, Segment.begun_begun]
      | pause =>
          rw [uninterrupted_pause, segments, feedFrom, Segment.begun, List.append_nil]
          by_cases nothing : collected = []
          · rw [if_pos nothing, nothing]
            rfl
          · rw [if_neg nothing]
            exact stream_segment_append ⟨_, .pause⟩ (by simpa using nothing) behind
      | failure f =>
          rw [feedFrom]
          by_cases again : f.kind = .interrupted
          · rw [if_pos again, uninterrupted_interrupted again, ih]
          · rw [if_neg again, uninterrupted_failure again, segments, Segment.begun,
              List.append_nil]
            exact stream_segment_append ⟨_, .failure f⟩ (by simp) behind

theorem stream_feed (source : Source) : source.feed.stream = source.stream := by
  rw [feed, stream_feedFrom, List.reverse_nil, Segment.begun_nil]
  rfl

end Source

/-! ## Cursors read the stream -/

namespace Cursor

def tape (c : Cursor) : Tape := ⟨c.feed.stream, c.position⟩

theorem current_char {c : Cursor} {ch : Char} {rest : Feed}
    (filled : c.feed.fill = (none, .char ch :: rest)) :
    c.current = (.ok (some ch), { c with feed := .char ch :: rest }) := by
  simp [current, filled, Feed.buffered]

theorem advance_char {c : Cursor} {ch : Char} {rest : Feed}
    (filled : c.feed.fill = (none, .char ch :: rest)) :
    c.advance = (.ok (some ch), ⟨rest, c.position.step ch⟩) := by
  simp [advance, filled]

theorem current_nothing {c : Cursor} {rest : Feed} (filled : c.feed.fill = (none, rest))
    (ended : rest.Ended) : c.current = (.ok none, { c with feed := rest }) := by
  simp [current, filled, ended.buffered_eq]

theorem advance_nothing {c : Cursor} {rest : Feed} (filled : c.feed.fill = (none, rest))
    (ended : rest.Ended) : c.advance = (.ok none, { c with feed := rest }) := by
  rcases ended.eq with rfl | ⟨later, rfl⟩
  · simp [advance, filled]
  · simp [advance, filled]

theorem look_failure {c : Cursor} {f : Failure} {rest : Feed}
    (filled : c.feed.fill = (some f, rest)) (k : Look) :
    c.look k = (.error f, { c with feed := rest }) := by
  have current : c.current = (.error f, { c with feed := rest }) := by simp [current, filled]
  cases k with
  | current => rw [look, current]; rfl
  | advance => simp [look, advance, filled, Except.map]
  | accept expected => rw [look, accept, current]; rfl
  | atEnd => rw [look, atEnd, current]; rfl

theorem look_char {c : Cursor} {ch : Char} {rest : Feed}
    (filled : c.feed.fill = (none, .char ch :: rest)) (k : Look) :
    c.look k = (.ok (k.reply (some ch)),
      if k.takes ch then ⟨rest, c.position.step ch⟩ else { c with feed := .char ch :: rest }) := by
  have current := current_char filled
  cases k with
  | current => rw [look, current]; rfl
  | advance => rw [look, advance_char filled]; rfl
  | accept expected =>
      -- what has been met is at the head of the buffer, so taking it cannot fail
      have again := advance_char (c := { c with feed := .char ch :: rest }) rfl
      by_cases same : ch = expected
      · subst same
        simp [look, accept, current, again, Look.reply, Look.takes, Except.map]
      · simp [look, accept, current, same, Look.reply, Look.takes, Except.map]
  | atEnd => rw [look, atEnd, current]; rfl

theorem look_nothing {c : Cursor} {rest : Feed} (filled : c.feed.fill = (none, rest))
    (ended : rest.Ended) (k : Look) : c.look k = (.ok (k.reply none), { c with feed := rest }) := by
  have current := current_nothing filled ended
  cases k with
  | current => rw [look, current]; rfl
  | advance => rw [look, advance_nothing filled ended]; rfl
  | accept expected => rw [look, accept, current]; rfl
  | atEnd => rw [look, atEnd, current]; rfl

theorem look_tape (c : Cursor) (k : Look) : ((c.look k).1, (c.look k).2.tape) = c.tape.look k := by
  cases c.feed.finds with
  | failure filled stream =>
      rw [look_failure filled]
      simp only [Tape.look, tape, stream]
  | char filled stream =>
      rw [look_char filled]
      simp only [Tape.look, tape, stream]
      split
      · rfl
      · rfl
  | nothing filled ended stream =>
      rw [look_nothing filled ended]
      simp only [Tape.look, tape, stream, ended.stream_eq]

/-- A call reads from what is left of the stream. -/
theorem call_tape (c : Cursor) (k : Call) : ((c.call k).1, (c.call k).2.tape) = c.tape.call k := by
  cases k with
  | look k => exact c.look_tape k
  | skipLine =>
      have line := c.feed.skipLine_stream c.position
      simp only [Tape.call, tape, line, call, skipLine]
      cases c.feed.takeLine.failure with
      | some f => rfl
      | none => rfl

theorem replies_tape (c : Cursor) (calls : List Call) : c.replies calls = c.tape.replies calls := by
  induction calls generalizing c with
  | nil => rfl
  | cons k calls ih =>
      rw [replies, Tape.replies, ih, ← call_tape]
      rfl

theorem tape_ofSource (source : Source) : (ofSource source).tape = ⟨source.stream, .start⟩ :=
  congrArg (Tape.mk · .start) source.stream_feed

/-- Whatever the source does, calls in any order return what they return to a reader of its stream,
and leave the cursor at the same position.  So advancing returns the characters and the failures of
the stream one by one, and then the end for ever. -/
theorem calls_read_the_stream (source : Source) :
    (∀ calls, (ofSource source).replies calls = Tape.replies ⟨source.stream, .start⟩ calls) ∧
      ∀ n, ((ofSource source).replies
          (List.replicate (source.stream.length + n) (.look .advance))).map Prod.fst =
        source.stream.map (Except.map fun c => .char (some c)) ++
          List.replicate n (.ok (.char none)) := by
  have same : ∀ calls,
      (ofSource source).replies calls = Tape.replies ⟨source.stream, .start⟩ calls := by
    intro calls
    rw [replies_tape, tape_ofSource]
  refine ⟨same, fun n => ?_⟩
  rw [same]
  exact Tape.replies_advance source.stream .start n

/-- A failure comes before the text that it cuts off, a line that is no text is a failure, and
nothing is read behind a pause that comes at the start of a line. -/
example :
    Source.stream [.byte 0x61, .failure ⟨.interrupted, "again"⟩, .byte 0xC3, .byte 0xA9,
      .failure ⟨.brokenPipe, "gone"⟩, .byte 0x62, .pause, .byte 0xFF, .byte 10, .byte 0x63,
      .byte 10, .pause, .byte 0x64] =
      [.error ⟨.brokenPipe, "gone"⟩, .ok 'a', .ok 'é', .ok 'b', .error .invalidText, .ok 'c',
        .ok '\n'] := by
  rfl

end Cursor

end JamTokens
