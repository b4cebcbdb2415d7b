import JamTokens.Proofs.Streams

/-!
# Cursors over a line buffer

In memory a cursor is the line that has been read last, as bytes, with the
offset of its next character.  Whenever the text behind the offset is taken,
four things are checked: the offset is within the line, a character begins
there, the bytes from there on are text, and the line has no line feed except
at its end.

No check ever fails.  Lines and columns are counted without a bound.  A line
buffer shows a cursor over a feed; a call that is made on it returns what the
call on that cursor returns, and leaves a buffer that shows the cursor behind
the call.  A call that returns a failure has read a byte or a failure of the
source.
-/

set_option autoImplicit false

namespace JamTokens

/-- What a check can find. -/
inductive Fault
  | beyondEnd
  | insideCharacter
  | notText
  | innerLineFeed
  /-- A loop goes on though a round of it has used nothing up. -/
  | idleRound
  /-- A lexeme is handed back while another one is pending. -/
  | lexemePending
  deriving DecidableEq, Repr

/-- Whether the event is a byte, or a failure that is not read over. -/
def SourceEvent.tells : SourceEvent → Bool
  | byte _ => true
  | pause => false
  | failure f => f.kind != .interrupted

/-! ## Reading one segment -/

def Segment.Empty (s : Segment) : Prop := s.bytes = [] ∧ s.ending.failure? = none

namespace Source

/-- Reads to the end of a segment of which `collected` has been read before, latest byte first. -/
def draw (collected : List UInt8) : Source → Segment × Source
  | [] => (⟨collected.reverse, .sourceEnd⟩, [])
  | .byte b :: rest =>
    if b = 10 then (⟨(b :: collected).reverse, .lineFeed⟩, rest) else draw (b :: collected) rest
  | .pause :: rest => (⟨collected.reverse, .pause⟩, rest)
  | .failure f :: rest =>
    if f.kind = .interrupted then draw collected rest else (⟨collected.reverse, .failure f⟩, rest)

theorem feedFrom_draw (collected : List UInt8) (source : Source) :
    ((draw collected source).1.Empty → (feedFrom collected source).Ended) ∧
      (¬ (draw collected source).1.Empty →
        feedFrom collected source =
          segment (draw collected source).1.bytes (draw collected source).1.ending.failure? ++
            (draw collected source).2.feed) := by
  fun_induction draw collected source with
  | case1 collected =>
      by_cases nothing : collected = []
      · subst nothing
        exact ⟨fun _ => trivial, fun more => absurd ⟨rfl, rfl⟩ more⟩
      · refine ⟨fun empty => absurd (List.reverse_eq_nil_iff.mp empty.1) nothing, fun _ => ?_⟩
        rw [feedFrom, if_neg nothing]
        exact (List.append_nil _).symm
  | case2 collected rest =>
      refine ⟨fun empty => absurd empty.1 (by simp), fun _ => ?_⟩
      rw [feedFrom, if_pos rfl]
      rfl
  | case3 collected b rest other ih => rwa [feedFrom, if_neg other]
  | case4 collected rest =>
      by_cases nothing : collected = []
      · subst nothing
        exact ⟨fun _ => trivial, fun more => absurd ⟨rfl, rfl⟩ more⟩
      · refine ⟨fun empty => absurd (List.reverse_eq_nil_iff.mp empty.1) nothing, fun _ => ?_⟩
        rw [feedFrom, if_neg nothing]
        rfl
  | case5 collected f rest again ih => rwa [feedFrom, if_pos again]
  | case6 collected f rest final =>
      refine ⟨fun empty => absurd empty.2 (by simp [Ending.failure?]), fun _ => ?_⟩
      rw [feedFrom, if_neg final]
      rfl

theorem not_mem_dropLast_reverse {collected : List UInt8} (one : 10 ∉ collected) :
    10 ∉ collected.reverse.dropLast :=
  fun member => one (List.mem_reverse.mp (List.dropLast_subset _ member))

theorem draw_oneLine {collected : List UInt8} (source : Source) (one : 10 ∉ collected) :
    10 ∉ (draw collected source).1.bytes.dropLast := by
  fun_induction draw collected source with
  | case1 collected => exact not_mem_dropLast_reverse one
  | case2 collected rest => simpa using one
  | case3 collected b rest other ih =>
      exact ih (List.not_mem_cons_of_ne_of_not_mem (Ne.symm other) one)
  | case4 collected rest => exact not_mem_dropLast_reverse one
  | case5 collected f rest again ih => exact ih one
  | case6 collected f rest final => exact not_mem_dropLast_reverse one

theorem draw_length (collected : List UInt8) (source : Source) :
    (draw collected source).1.bytes.length + (draw collected source).2.length ≤
      collected.length + source.length := by
  fun_induction draw collected source with
  | case1 collected => simp
  | case2 collected rest => simp; omega
  | case3 collected b rest other ih => simp at ih ⊢; omega
  | case4 collected rest => simp
  | case5 collected f rest again ih => simp; omega
  | case6 collected f rest final => simp

/-- A segment with a byte or a failure in it has been read from an event that tells one. -/
theorem draw_used (collected : List UInt8) (source : Source) :
    ∃ used, source = used ++ (draw collected source).2 ∧
      (¬ (draw collected source).1.Empty →
        collected ≠ [] ∨ ∃ event ∈ used, event.tells = true) := by
  fun_induction draw collected source with
  | case1 collected =>
      refine ⟨[], rfl, fun more => Or.inl ?_⟩
      rintro rfl
      exact more ⟨rfl, rfl⟩
  | case2 collected rest =>
      exact ⟨[.byte 10], rfl, fun _ => .inr ⟨.byte 10, List.mem_singleton_self _, rfl⟩⟩
  | case3 collected b rest other ih =>
      obtain ⟨used, split, _⟩ := ih
      exact ⟨.byte b :: used, congrArg (_ :: ·) split,
        fun _ => .inr ⟨.byte b, List.mem_cons_self, rfl⟩⟩
  | case4 collected rest =>
      refine ⟨[.pause], rfl, fun more => Or.inl ?_⟩
      rintro rfl
      exact more ⟨rfl, rfl⟩
  | case5 collected f rest again ih =>
      obtain ⟨used, split, told⟩ := ih
      refine ⟨.failure f :: used, congrArg (_ :: ·) split, fun more => ?_⟩
      refine (told more).imp_right ?_
      rintro ⟨event, member, tells⟩
      exact ⟨event, List.mem_cons_of_mem _ member, tells⟩
  | case6 collected f rest final =>
      refine ⟨[.failure f], rfl, fun _ => .inr ⟨.failure f, List.mem_singleton_self _, ?_⟩⟩
      simpa [SourceEvent.tells] using final

end Source

/-! ## Line buffers -/

structure LineBuffer where
  /-- What the source will do next. -/
  script : Source
  /-- The line that has been read last. -/
  line : List UInt8
  offset : Nat
  ended : Bool
  position : Position
  deriving DecidableEq, Repr

namespace LineBuffer

def ofSource (source : Source) : LineBuffer := ⟨source, [], 0, false, .start⟩

/-- The text behind the offset, if the checks let it be taken. -/
def unread (b : LineBuffer) : Except Fault (List Char) :=
  if b.line.length < b.offset then .error .beyondEnd
  else if 10 ∈ b.line.dropLast then .error .innerLineFeed
  else
    match b.line.drop b.offset with
    | [] => .ok []
    | first :: later =>
      if first.IsUTF8FirstByte then
        match Utf8.decode? (first :: later) with
        | some text => .ok text
        | none => .error .notText
      else .error .insideCharacter

/-- The offset stands between the two bytes of a character. -/
example : unread ⟨[], Utf8.encode ['é', '\n'], 1, false, .start⟩ = .error .insideCharacter := by rfl

/-- Puts the next line in place of the one before.  A failure keeps the part of the line that has
been read, if that is text. -/
def readLine (b : LineBuffer) : Option Failure × LineBuffer :=
  let (s, script) := b.script.draw []
  match Utf8.decode? s.bytes, s.ending.failure? with
  | some _, none =>
    (none, { b with script := script, line := s.bytes, offset := 0, ended := s.bytes.isEmpty })
  | some _, some f => (some f, { b with script := script, line := s.bytes, offset := 0 })
  | none, failure =>
    (some (failure.getD .invalidText), { b with script := script, line := [], offset := 0 })

/-- Reads a line if nothing is unread.  What is read is not empty, or the input has ended. -/
def fill (b : LineBuffer) : Option Failure × LineBuffer :=
  if b.offset < b.line.length ∨ b.ended = true then (none, b) else b.readLine

def current (b : LineBuffer) : Except Fault (Except Failure (Option Char) × LineBuffer) :=
  match b.fill with
  | (some f, b) => .ok (.error f, b)
  | (none, b) => b.unread.map fun text => (.ok text.head?, b)

def peek (b : LineBuffer) (k : Nat) : Except Fault (Option Char) := b.unread.map (·[k]?)

def step (b : LineBuffer) (c : Char) : LineBuffer :=
  { b with offset := b.offset + c.utf8Size, position := b.position.step c }

def advance (b : LineBuffer) : Except Fault (Except Failure (Option Char) × LineBuffer) :=
  match b.fill with
  | (some f, b) => .ok (.error f, b)
  | (none, b) => b.unread.map fun
    | [] => (.ok none, b)
    | c :: _ => (.ok (some c), b.step c)

def accept (b : LineBuffer) (expected : Char) : Except Fault (Except Failure Bool × LineBuffer) :=
  match b.current with
  | .error fault => .error fault
  | .ok (.error f, b) => .ok (.error f, b)
  | .ok (.ok next, b) =>
    if next = some expected then b.advance.map fun (result, b) => (result.map fun _ => true, b)
    else .ok (.ok false, b)

def atEnd (b : LineBuffer) : Except Fault (Except Failure Bool × LineBuffer) :=
  b.current.map fun (result, b) => (result.map Option.isNone, b)

/-! ## Loops over a line buffer end -/

/-- The bytes in the buffer and the events of the source that are left. -/
def left (b : LineBuffer) : Nat := b.script.length + (b.line.length - b.offset)

theorem readLine_left (b : LineBuffer) : b.readLine.2.left ≤ b.script.length := by
  have drawn := b.script.draw_length []
  unfold readLine
  rcases called : b.script.draw [] with ⟨s, script⟩
  rw [called] at drawn
  dsimp only at drawn ⊢
  split <;> simp only [left, List.length_nil] at drawn ⊢ <;> omega

theorem fill_left (b : LineBuffer) : b.fill.2.left ≤ b.left := by
  unfold fill
  split
  · exact Nat.le_refl _
  · exact Nat.le_trans b.readLine_left (Nat.le_add_right _ _)

theorem offset_lt_of_unread {b : LineBuffer} {c : Char} {text : List Char}
    (h : b.unread = .ok (c :: text)) : b.offset < b.line.length := by
  unfold unread at h
  split at h
  · cases h
  · split at h
    · cases h
    · split at h
      · cases h
      · rename_i found
        have proper := congrArg List.length found
        rw [List.length_drop, List.length_cons] at proper
        omega

theorem step_left {b : LineBuffer} (c : Char) (h : b.offset < b.line.length) :
    (b.step c).left < b.left := by
  have proper := c.utf8Size_pos
  simp only [step, left]
  omega

theorem current_left {b b' : LineBuffer} {result : Except Failure (Option Char)}
    (h : b.current = .ok (result, b')) : b'.left ≤ b.left := by
  have filled := b.fill_left
  unfold current at h
  rcases called : b.fill with ⟨_ | f, full⟩ <;> rw [called] at h filled
  · dsimp only at h
    rcases taken : full.unread with fault | text <;> rw [taken] at h <;> cases h
    exact filled
  · cases h
    exact filled

theorem advance_left {b b' : LineBuffer} {result : Except Failure (Option Char)}
    (h : b.advance = .ok (result, b')) :
    b'.left ≤ b.left ∧ ∀ c, result = .ok (some c) → b'.left < b.left := by
  have filled := b.fill_left
  unfold advance at h
  rcases called : b.fill with ⟨_ | f, full⟩ <;> rw [called] at h filled
  · dsimp only at h filled
    rcases taken : full.unread with fault | (_ | ⟨c', text⟩) <;> rw [taken] at h <;> cases h
    · exact ⟨filled, nofun⟩
    · have less := Nat.lt_of_lt_of_le (step_left c' (offset_lt_of_unread taken)) filled
      exact ⟨Nat.le_of_lt less, fun _ _ => less⟩
  · cases h
    exact ⟨filled, nofun⟩

/-- What one round of a loop comes to. -/
inductive Round (σ α : Type)
  | again (state : σ)
  | done (value : α)

def andThen {α β : Type} (checked : Except Fault (Except Failure α × LineBuffer))
    (next : α → LineBuffer → Except Fault (Except Failure β × LineBuffer)) :
    Except Fault (Except Failure β × LineBuffer) :=
  match checked with
  | .error fault => .error fault
  | .ok (.error f, b) => .ok (.error f, b)
  | .ok (.ok value, b) => next value b

/-- Repeats rounds until one is the last.  It is a fault if nothing has been used up by then. -/
def loop {σ α : Type} (round : σ → LineBuffer → Except Fault (Except Failure (Round σ α) × LineBuffer))
    (state : σ) (b : LineBuffer) : Except Fault (Except Failure α × LineBuffer) :=
  match round state b with
  | .error fault => .error fault
  | .ok (.error f, b') => .ok (.error f, b')
  | .ok (.ok (.done value), b') => .ok (.ok value, b')
  | .ok (.ok (.again state'), b') =>
    if b'.left < b.left then loop round state' b' else .error .idleRound
termination_by b.left

def lineRound (_ : Unit) (b : LineBuffer) :
    Except Fault (Except Failure (Round Unit Unit) × LineBuffer) :=
  andThen b.advance fun
    | none, b => .ok (.ok (.done ()), b)
    | some c, b => if c = '\n' then .ok (.ok (.done ()), b) else .ok (.ok (.again ()), b)

def skipLine (b : LineBuffer) : Except Fault (Except Failure Unit × LineBuffer) :=
  loop lineRound () b

theorem skipLine_left {b b' : LineBuffer} {result : Except Failure Unit}
    (h : b.skipLine = .ok (result, b')) :
    b'.left ≤ b.left ∧ ∀ c b₁, b.advance = .ok (.ok (some c), b₁) → b'.left < b.left := by
  generalize size : b.left = n
  induction n using Nat.strongRecOn generalizing b with
  | ind n ih =>
      subst size
      unfold skipLine at h
      rw [loop, lineRound] at h
      rcases called : b.advance with fault | ⟨f | (_ | c), b₁⟩ <;> rw [called] at h <;>
        simp only [andThen] at h
      · cases h
      · cases h
        exact ⟨(advance_left called).1, nofun⟩
      · cases h
        exact ⟨(advance_left called).1, nofun⟩
      · have less := (advance_left called).2 c rfl
        by_cases newline : c = '\n'
        · rw [if_pos newline] at h
          cases h
          exact ⟨Nat.le_of_lt less, fun _ _ _ => less⟩
        · rw [if_neg newline] at h
          dsimp only at h
          rw [if_pos less] at h
          have behind := Nat.lt_of_le_of_lt (ih _ less h rfl).1 less
          exact ⟨Nat.le_of_lt behind, fun _ _ _ => behind⟩

/-! ## What a line buffer shows -/

/-- The line is a text that has been read up to the offset, and one line at most. -/
structure Holds (b : LineBuffer) (front back : List Char) : Prop where
  line : b.line = Utf8.encode (front ++ back)
  offset : b.offset = (Utf8.encode front).length
  oneLine : 10 ∉ b.line.dropLast

/-- What is unread of the line, followed by what the source will give, is the feed of the cursor. -/
inductive Shows (b : LineBuffer) (c : Cursor) : Prop
  | going (front back : List Char) (holds : b.Holds front back) (goes : b.ended = false)
      (feed : c.feed = Feed.ofText back ++ b.script.feed) (position : b.position = c.position)
  | ended (front : List Char) (holds : b.Holds front []) (finished : b.ended = true)
      (feed : c.feed.Ended) (position : b.position = c.position)

theorem ofSource_shows (source : Source) : (ofSource source).Shows (Cursor.ofSource source) :=
  .going [] [] ⟨rfl, rfl, List.not_mem_nil⟩ rfl rfl rfl

theorem Holds.drop {b : LineBuffer} {front back : List Char} (h : b.Holds front back) :
    b.line.drop b.offset = Utf8.encode back := by
  rw [h.line, h.offset, Utf8.encode_append, List.drop_left]

theorem Holds.unread {b : LineBuffer} {front back : List Char} (h : b.Holds front back) :
    b.unread = .ok back := by
  have within : ¬ b.line.length < b.offset := by
    rw [h.line, h.offset, Utf8.encode_append, List.length_append]
    omega
  unfold LineBuffer.unread
  rw [if_neg within, if_neg h.oneLine, h.drop]
  cases back with
  | nil => rfl
  | cons c back =>
      obtain ⟨first, later, bytes⟩ := List.exists_cons_of_ne_nil (String.utf8EncodeChar_ne_nil (c := c))
      have starts : first.IsUTF8FirstByte := by
        have zero := UInt8.isUTF8FirstByte_getElem_zero_utf8EncodeChar (c := c)
        simpa [bytes] using zero
      have text := Utf8.decode?_encode (c :: back)
      rw [Utf8.encode_cons, bytes, List.cons_append] at text ⊢
      dsimp only
      rw [if_pos starts, text]

theorem Holds.step {b : LineBuffer} {front back : List Char} {ch : Char}
    (h : b.Holds front (ch :: back)) : (b.step ch).Holds (front ++ [ch]) back where
  line := by
    rw [List.append_assoc]
    exact h.line
  offset := by
    rw [Utf8.encode_append, List.length_append, ← h.offset]
    simp [LineBuffer.step, Utf8.encode]
  oneLine := h.oneLine

/-- From the first buffer to the second a part of the source has been read, and if something has
failed, there is a byte or a failure in that part. -/
def Draws (b b' : LineBuffer) (failed : Bool) : Prop :=
  ∃ used, b.script = used ++ b'.script ∧ (failed = true → ∃ event ∈ used, event.tells = true)

theorem draws_refl (b : LineBuffer) : b.Draws b false := ⟨[], rfl, nofun⟩

theorem Draws.trans {b b' b'' : LineBuffer} {earlier failed : Bool} (h : b.Draws b' earlier)
    (h' : b'.Draws b'' failed) : b.Draws b'' failed := by
  obtain ⟨used, split, _⟩ := h
  obtain ⟨used', split', told⟩ := h'
  refine ⟨used ++ used', by rw [split, split', List.append_assoc], fun hasFailed => ?_⟩
  obtain ⟨event, member, tells⟩ := told hasFailed
  exact ⟨event, List.mem_append_right _ member, tells⟩

theorem readLine_draws (b : LineBuffer) : b.Draws b.readLine.2 b.readLine.1.isSome := by
  obtain ⟨used, split, told⟩ := b.script.draw_used []
  unfold readLine
  rcases drawn : b.script.draw [] with ⟨s, script⟩
  rw [drawn] at split told
  have event (proper : ¬ s.Empty) : ∃ event ∈ used, event.tells = true :=
    (told proper).resolve_left (fun more => more rfl)
  dsimp only
  split
  · exact ⟨used, split, nofun⟩
  · rename_i failed
    exact ⟨used, split, fun _ => event fun empty => nomatch empty.2.symm.trans failed⟩
  · rename_i noText
    refine ⟨used, split, fun _ => event fun empty => ?_⟩
    rw [empty.1] at noText
    cases noText.symm.trans (Utf8.decode?_encode [])

/-! ## Filling the buffer -/

end LineBuffer

theorem Feed.buffered_ofText_append (text : List Char) (feed : Feed) :
    (ofText text ++ feed).buffered = text ++ feed.buffered := by
  induction text with
  | nil => rfl
  | cons c text ih => exact congrArg (c :: ·) ih

theorem Source.buffered_segment (bytes : List UInt8) (failure : Option Failure) (feed : Feed) :
    (segment bytes failure ++ feed).buffered = [] := by
  unfold segment
  cases Utf8.decode? bytes with
  | none => rfl
  | some text => rfl

theorem Source.buffered_feed (source : Source) : source.feed.buffered = [] := by
  obtain ⟨ended, going⟩ := source.feedFrom_draw []
  by_cases empty : (draw [] source).1.Empty
  · exact (ended empty).buffered_eq
  · rw [feed, going empty]
    exact buffered_segment _ _ _

namespace LineBuffer

theorem Shows.holds {b : LineBuffer} {c : Cursor} (h : b.Shows c) :
    ∃ front, b.Holds front c.feed.buffered := by
  cases h with
  | going front back holds goes feed position =>
      rw [feed, Feed.buffered_ofText_append, Source.buffered_feed, List.append_nil]
      exact ⟨front, holds⟩
  | ended front holds finished feed position =>
      rw [feed.buffered_eq]
      exact ⟨front, holds⟩

theorem Shows.unread {b : LineBuffer} {c : Cursor} (h : b.Shows c) :
    b.unread = .ok c.feed.buffered := by
  obtain ⟨front, holds⟩ := h.holds
  exact holds.unread

theorem readLine_shows {b : LineBuffer} {c : Cursor} (feed : c.feed = b.script.feed)
    (goes : b.ended = false) (position : b.position = c.position) :
    b.readLine.1 = c.feed.fill.1 ∧ b.readLine.2.Shows ⟨c.feed.fill.2, c.position⟩ := by
  obtain ⟨ended, going⟩ := b.script.feedFrom_draw []
  have oneLine : 10 ∉ (b.script.draw []).1.bytes.dropLast := Source.draw_oneLine _ List.not_mem_nil
  rw [Source.feed] at feed
  unfold readLine
  rcases drawn : b.script.draw [] with ⟨⟨bytes, ending⟩, script⟩
  rw [drawn] at ended going oneLine
  dsimp only at oneLine ⊢
  by_cases empty : Segment.Empty ⟨bytes, ending⟩
  · have finished := ended empty
    obtain ⟨rfl, noFailure⟩ := empty
    rw [feed, finished.fill, noFailure, show Utf8.decode? [] = some [] from Utf8.decode?_encode []]
    exact ⟨rfl, .ended [] ⟨rfl, rfl, List.not_mem_nil⟩ rfl finished position⟩
  · rw [feed, going empty, Source.segment]
    cases decoded : Utf8.decode? bytes with
    | none => exact ⟨rfl, .going [] [] ⟨rfl, rfl, List.not_mem_nil⟩ goes rfl position⟩
    | some text =>
        have line := Utf8.eq_encode_of_decode? decoded
        cases failed : ending.failure? with
        | some f => exact ⟨rfl, .going [] text ⟨line, rfl, oneLine⟩ goes rfl position⟩
        | none =>
            cases text with
            | nil => exact absurd ⟨line, failed⟩ empty
            | cons ch text =>
                have proper : bytes.isEmpty = false := by
                  simp [line, Utf8.encode_cons, String.utf8EncodeChar_ne_nil]
                exact ⟨rfl, .going [] (ch :: text) ⟨line, rfl, oneLine⟩ proper rfl position⟩

theorem fill_shows {b : LineBuffer} {c : Cursor} (h : b.Shows c) :
    b.fill.1 = c.feed.fill.1 ∧ b.fill.2.Shows ⟨c.feed.fill.2, c.position⟩ ∧
      b.Draws b.fill.2 c.feed.fill.1.isSome := by
  unfold fill
  cases h with
  | ended front holds finished feed position =>
      rw [if_pos (.inr finished), feed.fill]
      exact ⟨rfl, .ended front holds finished feed position, b.draws_refl⟩
  | going front back holds goes feed position =>
      cases back with
      | nil =>
          have nothing : ¬ (b.offset < b.line.length ∨ b.ended = true) := by
            rw [holds.line, holds.offset, List.append_nil, goes]
            simp
          obtain ⟨failure, shows⟩ := readLine_shows feed goes position
          have draws := b.readLine_draws
          rw [if_neg nothing]
          rw [failure] at draws ⊢
          exact ⟨rfl, shows, draws⟩
      | cons ch back =>
          have some : b.offset < b.line.length ∨ b.ended = true := by
            left
            apply offset_lt_of_unread
            exact holds.unread
          have filled : c.feed.fill = (none, c.feed) := by rw [feed]; rfl
          rw [if_pos some, filled]
          exact ⟨rfl, .going front (ch :: back) holds goes feed position, b.draws_refl⟩

theorem Shows.step {b : LineBuffer} {ch : Char} {rest : Feed} {p : Position}
    (h : b.Shows ⟨.char ch :: rest, p⟩) : (b.step ch).Shows ⟨rest, p.step ch⟩ := by
  cases h with
  | ended front holds finished feed position => exact absurd feed id
  | going front back holds goes feed position =>
      have first := congrArg Feed.buffered feed
      rw [Feed.buffered_ofText_append, Source.buffered_feed, List.append_nil] at first
      obtain rfl : back = ch :: rest.buffered := first.symm
      rw [Feed.ofText, List.map_cons, List.cons_append, List.cons.injEq] at feed
      exact .going (front ++ [ch]) rest.buffered holds.step goes feed.2
        (congrArg (Position.step · ch) position)

/-! ## Calls -/

/-- The checked call returns what the plain one returns, and shows the same behind it. -/
def Meets {α : Type} (b : LineBuffer) (checked : Except Fault (Except Failure α × LineBuffer))
    (plain : Except Failure α × Cursor) : Prop :=
  ∃ b', checked = .ok (plain.1, b') ∧ b'.Shows plain.2 ∧ b.Draws b' !plain.1.isOk

variable {b : LineBuffer} {c : Cursor}

theorem current_meets (h : b.Shows c) : b.Meets b.current c.current := by
  obtain ⟨failure, shows, draws⟩ := fill_shows h
  unfold current Cursor.current
  rcases called : b.fill with ⟨result, b'⟩
  rw [called] at failure shows draws
  rcases filled : c.feed.fill with ⟨_ | f, rest⟩ <;> rw [filled] at failure shows draws <;>
    cases failure
  · dsimp only at shows ⊢
    rw [shows.unread]
    exact ⟨b', rfl, shows, draws⟩
  · exact ⟨b', rfl, shows, draws⟩

theorem advance_meets (h : b.Shows c) : b.Meets b.advance c.advance := by
  obtain ⟨failure, shows, draws⟩ := fill_shows h
  unfold advance Cursor.advance
  rcases called : b.fill with ⟨result, b'⟩
  rw [called] at failure shows draws
  rcases filled : c.feed.fill with ⟨_ | f, rest⟩ <;> rw [filled] at failure shows draws <;>
    cases failure
  · dsimp only at shows ⊢
    rw [shows.unread]
    match rest with
    | .char ch :: rest => exact ⟨b'.step ch, rfl, shows.step, draws⟩
    | .refill failure :: rest => exact ⟨b', rfl, shows, draws⟩
    | .close :: rest => exact ⟨b', rfl, shows, draws⟩
    | [] => exact ⟨b', rfl, shows, draws⟩
  · exact ⟨b', rfl, shows, draws⟩

theorem peek_meets (h : b.Shows c) (k : Nat) : b.peek k = .ok (c.peek k) := by
  rw [peek, h.unread]
  rfl

theorem accept_meets (h : b.Shows c) (expected : Char) :
    b.Meets (b.accept expected) (c.accept expected) := by
  obtain ⟨b', called, shows, draws⟩ := current_meets h
  unfold accept Cursor.accept
  rw [called]
  rcases plain : c.current with ⟨f | next, c'⟩ <;> rw [plain] at shows draws
  · exact ⟨b', rfl, shows, draws⟩
  · obtain ⟨b'', called', shows', draws'⟩ := advance_meets shows
    dsimp only at called' shows' draws' ⊢
    by_cases same : next = some expected
    · rw [if_pos same, if_pos same, called']
      rcases plain' : c'.advance with ⟨f | _, c''⟩ <;> rw [plain'] at shows' draws'
      · exact ⟨b'', rfl, shows', draws.trans draws'⟩
      · exact ⟨b'', rfl, shows', draws.trans draws'⟩
    · rw [if_neg same, if_neg same]
      exact ⟨b', rfl, shows, draws⟩

theorem atEnd_meets (h : b.Shows c) : b.Meets b.atEnd c.atEnd := by
  obtain ⟨b', called, shows, draws⟩ := current_meets h
  unfold atEnd Cursor.atEnd
  rw [called]
  rcases plain : c.current with ⟨f | next, c'⟩ <;> rw [plain] at shows draws
  · exact ⟨b', rfl, shows, draws⟩
  · exact ⟨b', rfl, shows, draws⟩

/-! ## Loops -/

/-- What a round comes to: the loop ends as the plain call does, or the plain call is the same as
one on the cursor that is shown next. -/
inductive RoundMeets {σ α : Type} (b : LineBuffer) (plain : σ → Cursor → Except Failure α × Cursor)
    (outcome : Except Failure α × Cursor)
    (checked : Except Fault (Except Failure (Round σ α) × LineBuffer)) : Prop
  | failed {f : Failure} {b' : LineBuffer} (called : checked = .ok (.error f, b'))
      (fails : outcome.1 = .error f) (shows : b'.Shows outcome.2) (draws : b.Draws b' true)
  | done {value : α} {b' : LineBuffer} (called : checked = .ok (.ok (.done value), b'))
      (succeeds : outcome.1 = .ok value) (shows : b'.Shows outcome.2) (draws : b.Draws b' false)
  | again {state : σ} {b' : LineBuffer} {c' : Cursor}
      (called : checked = .ok (.ok (.again state), b')) (less : b'.left < b.left)
      (same : outcome = plain state c') (shows : b'.Shows c') (draws : b.Draws b' false)

/-- A loop does what the plain call does if each of its rounds is a part of that call. -/
theorem loop_meets {σ α : Type}
    (round : σ → LineBuffer → Except Fault (Except Failure (Round σ α) × LineBuffer))
    (plain : σ → Cursor → Except Failure α × Cursor)
    (rounds : ∀ state b c, b.Shows c → RoundMeets b plain (plain state c) (round state b))
    (state : σ) (h : b.Shows c) : b.Meets (loop round state b) (plain state c) := by
  generalize size : b.left = n
  induction n using Nat.strongRecOn generalizing state b c with
  | ind n ih =>
      rw [loop]
      cases rounds state b c h with
      | @failed f b' called fails shows draws =>
          rw [called]
          refine ⟨b', by rw [fails], shows, ?_⟩
          rw [fails]
          exact draws
      | @done value b' called succeeds shows draws =>
          rw [called]
          refine ⟨b', by rw [succeeds], shows, ?_⟩
          rw [succeeds]
          exact draws
      | @again state' b' c' called less same shows draws =>
          obtain ⟨last, looped, shows', draws'⟩ := ih _ (size ▸ less) state' shows rfl
          rw [called, same]
          dsimp only
          rw [if_pos less]
          exact ⟨last, looped, shows', draws.trans draws'⟩

end LineBuffer

namespace Feed

/-- A way of taking characters that reads on at the end of the buffer fails as the source does. -/
theorem take_of_failure (take : Feed → Run) (again : ∀ rest, take (.refill none :: rest) = take rest)
    (fails : ∀ f rest, take (.refill (some f) :: rest) = ⟨[], some f, rest⟩) {feed rest : Feed}
    {f : Failure} (h : feed.fill = (some f, rest)) : take feed = ⟨[], some f, rest⟩ := by
  fun_induction fill feed with
  | case1 feed ih => rw [again, ih h]
  | case2 f' feed =>
      cases h
      exact fails f rest
  | case3 feed _ _ => cases h

end Feed

namespace Cursor

theorem skipLine_of_failure {c : Cursor} {f : Failure} {rest : Feed}
    (filled : c.feed.fill = (some f, rest)) : c.skipLine = (.error f, { c with feed := rest }) := by
  rw [skipLine, Feed.take_of_failure Feed.takeLine (fun _ => rfl) (fun _ _ => rfl) filled]
  rfl

theorem skipLine_of_char {c : Cursor} {ch : Char} {rest : Feed}
    (filled : c.feed.fill = (none, .char ch :: rest)) :
    c.skipLine =
      if ch = '\n' then (.ok (), ⟨rest, c.position.step ch⟩)
      else skipLine ⟨rest, c.position.step ch⟩ := by
  rw [skipLine, Feed.takeLine_fill filled, Feed.takeLine]
  by_cases newline : ch = '\n'
  · rw [if_pos newline, if_pos newline]
    rfl
  · rw [if_neg newline, if_neg newline]
    rfl

theorem skipLine_of_nothing {c : Cursor} {rest : Feed} (filled : c.feed.fill = (none, rest))
    (ended : rest.Ended) : c.skipLine = (.ok (), { c with feed := rest }) := by
  rw [skipLine, Feed.takeLine_fill filled]
  rcases ended.eq with rfl | ⟨later, rfl⟩
  · rfl
  · rfl

theorem advance_failure {c : Cursor} {f : Failure} {rest : Feed}
    (filled : c.feed.fill = (some f, rest)) : c.advance = (.error f, { c with feed := rest }) := by
  rw [advance, filled]

end Cursor

namespace LineBuffer

variable {b : LineBuffer} {c : Cursor}

theorem skipLine_meets (h : b.Shows c) : b.Meets b.skipLine c.skipLine := by
  refine loop_meets lineRound (fun _ c => c.skipLine) ?_ () h
  intro _ b c h
  obtain ⟨b', called, shows, draws⟩ := advance_meets h
  unfold lineRound
  cases c.feed.finds with
  | failure filled _ =>
      rw [Cursor.advance_failure filled] at called shows draws
      rw [called, Cursor.skipLine_of_failure filled]
      exact .failed rfl rfl shows draws
  | nothing filled ended _ =>
      rw [Cursor.advance_nothing filled ended] at called shows draws
      rw [called, Cursor.skipLine_of_nothing filled ended]
      exact .done rfl rfl shows draws
  | @char ch rest filled _ =>
      rw [Cursor.advance_char filled] at called shows draws
      rw [called, Cursor.skipLine_of_char filled]
      by_cases newline : ch = '\n'
      · rw [if_pos newline]
        exact .done (if_pos newline) rfl shows draws
      · rw [if_neg newline]
        exact .again (if_neg newline) ((advance_left called).2 ch rfl) rfl shows draws

end LineBuffer

/-! ## Sequences of queries -/

namespace Cursor

/-- What is asked of a cursor: a call, or a later character of what is in the buffer. -/
inductive Query
  | call (k : Call)
  | peek (k : Nat)
  deriving DecidableEq, Repr

inductive Heard
  | reply (r : Except Failure Reply)
  | peeked (next : Option Char)

def ask (c : Cursor) : Query → Heard × Cursor
  | .call k => (.reply (c.call k).1, (c.call k).2)
  | .peek k => (.peeked (c.peek k), c)

/-- What each query returns, and where the next character stands behind it. -/
def asks (c : Cursor) : List Query → List (Heard × Position)
  | [] => []
  | q :: queries => ((c.ask q).1, (c.ask q).2.position) :: (c.ask q).2.asks queries

def afterAsks (c : Cursor) : List Query → Cursor
  | [] => c
  | q :: queries => (c.ask q).2.afterAsks queries

end Cursor

namespace LineBuffer

open Cursor (Look Query Heard Reply)

def passing {α β : Type} (make : Except Failure α → β)
    (checked : Except Fault (Except Failure α × LineBuffer)) : Except Fault (β × LineBuffer) :=
  checked.map fun (result, b) => (make result, b)

def look (b : LineBuffer) : Look → Except Fault (Except Failure Reply × LineBuffer)
  | .current => passing (Except.map .char) b.current
  | .advance => passing (Except.map .char) b.advance
  | .accept expected => passing (Except.map .flag) (b.accept expected)
  | .atEnd => passing (Except.map .flag) b.atEnd

def call (b : LineBuffer) : Cursor.Call → Except Fault (Except Failure Reply × LineBuffer)
  | .look k => b.look k
  | .skipLine => passing (Except.map fun _ => .done) b.skipLine

def ask (b : LineBuffer) : Query → Except Fault (Heard × LineBuffer)
  | .call k => passing .reply (b.call k)
  | .peek k => (b.peek k).map fun next => (.peeked next, b)

def asks (b : LineBuffer) : List Query → Except Fault (List (Heard × Position) × LineBuffer)
  | [] => .ok ([], b)
  | q :: queries =>
    match b.ask q with
    | .error fault => .error fault
    | .ok (heard, b) =>
      (b.asks queries).map fun (later, last) => ((heard, b.position) :: later, last)

/-- What the checks ask of a buffer. -/
structure Sound (b : LineBuffer) : Prop where
  within : b.offset ≤ b.line.length
  before : (Utf8.decode? (b.line.take b.offset)).isSome
  behind : (Utf8.decode? (b.line.drop b.offset)).isSome
  oneLine : 10 ∉ b.line.dropLast

variable {b : LineBuffer} {c : Cursor}

theorem Holds.sound {front back : List Char} (h : b.Holds front back) : b.Sound where
  within := by
    rw [h.line, h.offset, Utf8.encode_append, List.length_append]
    omega
  before := by
    rw [h.line, h.offset, Utf8.encode_append, List.take_left, Utf8.decode?_encode]
    rfl
  behind := by
    rw [h.drop, Utf8.decode?_encode]
    rfl
  oneLine := h.oneLine

theorem Shows.sound (h : b.Shows c) : b.Sound := by
  cases h with
  | going front back holds => exact holds.sound
  | ended front holds => exact holds.sound

theorem Shows.position (h : b.Shows c) : b.position = c.position := by
  cases h with
  | going front back holds goes feed position => exact position
  | ended front holds finished feed position => exact position

theorem Meets.passing {α β : Type} {checked : Except Fault (Except Failure α × LineBuffer)}
    {plain : Except Failure α × Cursor} (h : b.Meets checked plain) (make : α → β) :
    b.Meets (passing (Except.map make) checked) (plain.1.map make, plain.2) := by
  obtain ⟨b', rfl, shows, draws⟩ := h
  rcases plain with ⟨f | value, c'⟩
  · exact ⟨b', rfl, shows, draws⟩
  · exact ⟨b', rfl, shows, draws⟩

theorem call_meets (h : b.Shows c) (k : Cursor.Call) : b.Meets (b.call k) (c.call k) := by
  cases k with
  | skipLine => exact (skipLine_meets h).passing _
  | look k =>
      cases k with
      | current => exact (current_meets h).passing _
      | advance => exact (advance_meets h).passing _
      | accept expected => exact (accept_meets h expected).passing _
      | atEnd => exact (atEnd_meets h).passing _

theorem ask_meets (h : b.Shows c) (q : Query) :
    ∃ b', b.ask q = .ok ((c.ask q).1, b') ∧ b'.Shows (c.ask q).2 := by
  cases q with
  | call k =>
      obtain ⟨b', called, shows, _⟩ := call_meets h k
      exact ⟨b', by rw [ask, called]; rfl, shows⟩
  | peek k => exact ⟨b, by rw [ask, peek_meets h]; rfl, h⟩

theorem asks_shows (h : b.Shows c) (queries : List Query) :
    ∃ b', b.asks queries = .ok (c.asks queries, b') ∧ b'.Shows (c.afterAsks queries) := by
  induction queries generalizing b c with
  | nil => exact ⟨b, rfl, h⟩
  | cons q queries ih =>
      obtain ⟨b', asked, shows⟩ := ask_meets h q
      obtain ⟨last, later, shown⟩ := ih shows
      refine ⟨last, ?_, shown⟩
      rw [asks, asked]
      dsimp only
      rw [later, shows.position]
      rfl

theorem asks_meet (h : b.Shows c) (queries : List Query) :
    ∃ b', b.asks queries = .ok (c.asks queries, b') ∧ b'.Sound := by
  obtain ⟨b', asked, shows⟩ := asks_shows h queries
  exact ⟨b', asked, shows.sound⟩

end LineBuffer

end JamTokens
