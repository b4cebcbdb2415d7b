import JamTokens.Proofs.LineBuffers
import JamTokens.Proofs.TextFeeds

/-!
# Looking ahead

Looking ahead never goes beyond the line that is in the buffer.  What is found
there is what advancing will return, and the source is not asked for it; where
nothing is found, nothing is found further on.  On a text the buffer holds the
rest of the line, once it has been filled.  Looking ahead leaves no trace.

That the source is not asked is said of a line buffer.  It would answer in the
same way whatever its source had yet to give, and of the buffer only the offset
and the position are moved.
-/

set_option autoImplicit false

namespace JamTokens

/-! ## The first line of a text -/

/-- The characters through the first line feed; all of them if there is none. -/
def firstLine : List Char → List Char
  | [] => []
  | c :: rest => if c = '\n' then [c] else c :: firstLine rest

theorem head?_firstLine (text : List Char) : (firstLine text).head? = text.head? := by
  cases text with
  | nil => rfl
  | cons c text =>
      rw [firstLine]
      split
      · rfl
      · rfl

theorem firstLine_append_behindLine (text : List Char) :
    firstLine text ++ behindLine text = text := by
  induction text with
  | nil => rfl
  | cons c text ih =>
      by_cases newline : c = '\n'
      · simp only [firstLine, behindLine, if_pos newline, List.singleton_append]
      · simp only [firstLine, behindLine, if_neg newline, List.cons_append, ih]

theorem firstLine_line {line : List Char} (one : '\n' ∉ line) (rest : List Char) :
    firstLine (line ++ '\n' :: rest) = line ++ ['\n'] := by
  have whole := firstLine_append_behindLine (line ++ '\n' :: rest)
  rw [behindLine_line one] at whole
  exact List.append_cancel_right (whole.trans (List.append_cons line '\n' rest))

theorem firstLine_lastLine {line : List Char} (one : '\n' ∉ line) : firstLine line = line := by
  have whole := firstLine_append_behindLine line
  rwa [behindLine_lastLine one, List.append_nil] at whole

/-! ## What is in the buffer of a text -/

theorem Feed.suffix_ofText_append {line : List Char} {feed rest : Feed}
    (h : feed <:+ ofText line ++ rest) :
    (∃ part, part <:+ line ∧ feed = ofText part ++ rest) ∨ feed <:+ rest := by
  induction line with
  | nil => exact Or.inr h
  | cons c line ih =>
      rcases List.suffix_cons_iff.mp h with rfl | h
      · exact Or.inl ⟨c :: line, List.suffix_refl _, rfl⟩
      · rcases ih h with ⟨part, within, rfl⟩ | behind
        · exact Or.inl ⟨part, within.trans (List.suffix_cons c line), rfl⟩
        · exact Or.inr behind

namespace Source

theorem buffered_of_suffix {text : List Char} {feed : Feed} (h : feed <:+ (ofText text).feed) :
    feed.buffered = [] ∨ feed.buffered = firstLine feed.chars := by
  induction text using lines_induction with
  | nil =>
      left
      rw [List.suffix_nil.mp h]
      rfl
  | lastLine line proper one =>
      rw [feed_lastLine proper one, ← List.append_nil (Feed.ofText line)] at h
      rcases List.suffix_cons_iff.mp h with rfl | h
      · exact Or.inl rfl
      rcases Feed.suffix_ofText_append h with ⟨part, within, rfl⟩ | behind
      · right
        rw [Feed.buffered_ofText_append, Feed.chars_append, Feed.chars_ofText, Feed.chars_nil,
          List.append_nil, firstLine_lastLine fun member => one (within.subset member)]
        exact List.append_nil part
      · left
        rw [List.suffix_nil.mp behind]
        rfl
  | line line rest one ih =>
      rw [feed_line one] at h
      rcases List.suffix_cons_iff.mp h with rfl | h
      · exact Or.inl rfl
      rcases Feed.suffix_ofText_append h with ⟨part, ⟨front, split⟩, rfl⟩ | behind
      · rw [Feed.buffered_ofText_append, buffered_feed, List.append_nil, Feed.chars_append,
          Feed.chars_ofText, chars_feed]
        rcases List.eq_nil_or_concat part with rfl | ⟨body, last, rfl⟩
        · exact Or.inl rfl
        · right
          rw [List.concat_eq_append] at split ⊢
          rw [← List.append_assoc] at split
          obtain ⟨rfl, rfl⟩ := List.append_singleton_inj.mp split
          rw [List.append_assoc, List.singleton_append,
            firstLine_line fun member => one (List.mem_append_right front member)]
      · exact ih behind

theorem fill_of_suffix {text : List Char} {feed : Feed} (h : feed <:+ (ofText text).feed) :
    feed.fill.1 = none ∧ feed.fill.2.buffered = firstLine feed.chars := by
  induction feed with
  | nil => exact ⟨rfl, rfl⟩
  | cons signal rest ih =>
      rcases signal_of_mem_feed (h.subset List.mem_cons_self) with rfl | ⟨c, rfl⟩
      · rw [Feed.fill]
        exact ih ((List.suffix_cons _ _).trans h)
      · exact ⟨rfl, (buffered_of_suffix h).resolve_left (List.cons_ne_nil _ _)⟩

end Source

/-! ## Where a cursor gets -/

theorem Feed.fill_passes (feed : Feed) :
    ∃ front : Feed, feed = front ++ feed.fill.2 ∧ front.chars = [] := by
  fun_induction fill feed with
  | case1 rest ih =>
      obtain ⟨front, split, nothing⟩ := ih
      exact ⟨.refill none :: front, congrArg (_ :: ·) split, nothing⟩
  | case2 f rest => exact ⟨[.refill (some f)], rfl, rfl⟩
  | case3 feed _ _ => exact ⟨[], rfl, rfl⟩

namespace Cursor

theorem look_moves (c : Cursor) (k : Look) : c.MovesTo (c.look k).2 := by
  obtain ⟨front, split, nothing⟩ := c.feed.fill_passes
  have stays {rest : Feed} (left : c.feed = front ++ rest) : c.MovesTo { c with feed := rest } :=
    ⟨front, left, by rw [nothing]; rfl⟩
  cases c.feed.finds with
  | failure filled _ =>
      rw [filled] at split
      rw [look_failure filled]
      exact stays split
  | nothing filled ended _ =>
      rw [filled] at split
      rw [look_nothing filled ended]
      exact stays split
  | @char ch rest filled _ =>
      rw [filled] at split
      rw [look_char filled]
      by_cases taken : k.takes ch = true
      · rw [if_pos taken]
        refine ⟨front ++ [.char ch], split.trans (List.append_cons front _ rest), ?_⟩
        rw [Feed.chars_append, nothing]
        rfl
      · rw [if_neg taken]
        exact stays split

theorem ask_moves (c : Cursor) (q : Query) : c.MovesTo (c.ask q).2 := by
  cases q with
  | peek k => exact c.movesTo_refl
  | call k =>
      cases k with
      | look k => exact c.look_moves k
      | skipLine => exact c.skipLine_moves

theorem afterAsks_moves (c : Cursor) (queries : List Query) : c.MovesTo (c.afterAsks queries) := by
  induction queries generalizing c with
  | nil => exact c.movesTo_refl
  | cons q queries ih => exact (c.ask_moves q).trans (ih _)

/-- What is heard when the characters of a text are advanced over. -/
def handed (p : Position) : List Char → List (Heard × Position)
  | [] => []
  | c :: text => (.reply (.ok (.char (some c))), p.step c) :: handed (p.step c) text

theorem current_ofText (text : List Char) (queries : List Query) :
    let c := (ofSource (.ofText text)).afterAsks queries
    ∃ before unread, text = before ++ unread ∧ c.position = .behind before ∧
      ∃ filled, c.current = (.ok unread.head?, filled) ∧ filled.position = c.position ∧
        ∀ k, filled.peek k = (firstLine unread)[k]? := by
  intro c
  obtain ⟨within, before, whole, position⟩ :=
    ((ofSource (.ofText text)).afterAsks_moves queries).of_text
  obtain ⟨succeeds, line⟩ := Source.fill_of_suffix within
  refine ⟨before, c.feed.chars, whole, position, { c with feed := c.feed.fill.2 }, ?_, rfl, ?_⟩
  · rw [← head?_firstLine, ← line]
    unfold current
    rcases filled : c.feed.fill with ⟨result, rest⟩
    rw [filled] at succeeds
    cases succeeds
    rfl
  · intro k
    exact congrArg (·[k]?) line

end Cursor

/-! ## What a line buffer can be relied on for -/

namespace LineBuffer

open Cursor (Query)

def passed (b : LineBuffer) (text : List Char) : LineBuffer :=
  { b with offset := b.offset + (Utf8.encode text).length, position := b.position.after text }

theorem step_passed (b : LineBuffer) (c : Char) (text : List Char) :
    (b.step c).passed text = b.passed (c :: text) := by
  have size : (Utf8.encode (c :: text)).length = c.utf8Size + (Utf8.encode text).length := by
    simp [Utf8.encode_cons]
  rw [passed, passed, size, ← Nat.add_assoc]
  rfl

/-- A character that is in the buffer is advanced over, and the source is not asked. -/
theorem Holds.advance {b : LineBuffer} {front back : List Char} {ch : Char}
    (h : b.Holds front (ch :: back)) : b.advance = .ok (.ok (some ch), b.step ch) := by
  have filled : b.fill = (none, b) := by
    rw [fill, if_pos (Or.inl (offset_lt_of_unread h.unread))]
  rw [LineBuffer.advance, filled]
  dsimp only
  rw [h.unread]
  rfl

theorem Holds.advances {b : LineBuffer} {front back : List Char} (text : List Char)
    (h : b.Holds front (text ++ back)) :
    b.asks (.replicate text.length (.call (.look .advance))) =
      .ok (Cursor.handed b.position text, b.passed text) := by
  induction text generalizing b front with
  | nil => rfl
  | cons c text ih =>
      have later := ih h.step
      have first : b.ask (.call (.look .advance)) =
          .ok (.reply (.ok (.char (some c))), b.step c) := by
        rw [ask, call, look, h.advance]
        rfl
      rw [List.length_cons, List.replicate_succ, asks, first]
      dsimp only
      rw [later, step_passed]
      rfl

/-- Looking ahead in the buffer is looking ahead from the cursor, and finds what is there. -/
structure Honest (b : LineBuffer) (c : Cursor) : Prop where
  peeks : ∀ k, b.peek k = .ok (c.peek k)
  /-- Advancing so far returns character after character, and what was found as the last.  That
  would be so with any other source behind the buffer, and the source is left as it is. -/
  found : ∀ k ch, c.peek k = some ch →
    ∃ text, text.length = k ∧
      c.asks (.replicate (k + 1) (.call (.look .advance))) =
        Cursor.handed c.position (text ++ [ch]) ∧
      ∀ script, asks { b with script := script } (.replicate (k + 1) (.call (.look .advance))) =
        .ok (Cursor.handed c.position (text ++ [ch]),
          passed { b with script := script } (text ++ [ch]))
  /-- Behind a place where nothing is found nothing is found. -/
  missing : ∀ k j, c.peek k = none → k ≤ j → c.peek j = none

theorem Shows.honest {b : LineBuffer} {c : Cursor} (h : b.Shows c) : b.Honest c where
  peeks := peek_meets h
  found := by
    intro k ch there
    obtain ⟨within, same⟩ := List.getElem?_eq_some_iff.mp there
    have size : (c.feed.buffered.take k).length = k := by
      rw [List.length_take]
      exact Nat.min_eq_left (Nat.le_of_lt within)
    have split : c.feed.buffered =
        (c.feed.buffered.take k ++ [ch]) ++ c.feed.buffered.drop (k + 1) := by
      rw [List.append_assoc, List.singleton_append, ← same, ← List.drop_eq_getElem_cons within,
        List.take_append_drop]
    obtain ⟨front, holds⟩ := h.holds
    rw [split] at holds
    have advances : ∀ script,
        asks { b with script := script } (.replicate (k + 1) (.call (.look .advance))) =
          .ok (Cursor.handed c.position (c.feed.buffered.take k ++ [ch]),
            passed { b with script := script } (c.feed.buffered.take k ++ [ch])) := by
      intro script
      have untouched : Holds { b with script := script } front _ :=
        ⟨holds.line, holds.offset, holds.oneLine⟩
      have told := untouched.advances
      rw [List.length_append, size] at told
      rw [← h.position]
      exact told
    refine ⟨c.feed.buffered.take k, size, ?_, advances⟩
    obtain ⟨b', asked, -⟩ := asks_shows h (.replicate (k + 1) (.call (.look .advance)))
    have both := asked.symm.trans (advances b.script)
    exact congrArg Prod.fst (Except.ok.inj both)
  missing := by
    intro k j nothing further
    have short : c.feed.buffered.length ≤ k := List.getElem?_eq_none_iff.mp nothing
    exact List.getElem?_eq_none (Nat.le_trans short further)

theorem asks_append {b b' : LineBuffer} {front : List Query}
    {answers : List (Cursor.Heard × Position)} (h : b.asks front = .ok (answers, b'))
    (back : List Query) :
    b.asks (front ++ back) = (b'.asks back).map fun (later, last) => (answers ++ later, last) := by
  induction front generalizing b answers with
  | nil =>
      obtain ⟨rfl, rfl⟩ := Prod.mk.inj (Except.ok.inj h)
      rw [List.nil_append]
      cases b.asks back with
      | error fault => rfl
      | ok result => rfl
  | cons q front ih =>
      rw [asks] at h
      rw [List.cons_append, asks]
      cases asked : b.ask q with
      | error fault =>
          rw [asked] at h
          cases h
      | ok first =>
          obtain ⟨heard, b₁⟩ := first
          rw [asked] at h
          dsimp only at h ⊢
          cases later : b₁.asks front with
          | error fault =>
              rw [later] at h
              cases h
          | ok result =>
              obtain ⟨answers', last⟩ := result
              rw [later] at h
              obtain ⟨rfl, rfl⟩ := Prod.mk.inj (Except.ok.inj h)
              rw [ih later]
              cases last.asks back with
              | error fault => rfl
              | ok result => rfl

/-- Another look ahead between two queries changes neither an answer nor the buffer. -/
theorem Shows.asks_peek {b : LineBuffer} {c : Cursor} (h : b.Shows c) (k : Nat)
    (more : List Query) :
    ∃ last, b.asks more = .ok (c.asks more, last) ∧
      b.asks (.peek k :: more) = .ok (c.asks (.peek k :: more), last) := by
  obtain ⟨last, asked, -⟩ := asks_shows h more
  refine ⟨last, asked, ?_⟩
  have first : b.ask (.peek k) = .ok (.peeked (c.peek k), b) := by
    rw [ask, peek_meets h]
    rfl
  rw [asks, first]
  dsimp only
  rw [asked, h.position]
  rfl

end LineBuffer

namespace Cursor

/-- Whatever a source does and however far a cursor has come in it, looking ahead is honest: a
character that is found is what advancing returns, without asking the source; behind a place where
nothing is found there is nothing to be found; no later answer shows whether there was a look ahead.
On a text, once the next character has been asked for, what is found is the rest of the line. -/
theorem lookahead_is_honest (source : Source) (queries : List Query) :
    let c := (ofSource source).afterAsks queries
    let answers := (ofSource source).asks queries
    (∃ b, (LineBuffer.ofSource source).asks queries = .ok (answers, b) ∧ b.Honest c) ∧
      (∀ k more, ∃ last,
        (LineBuffer.ofSource source).asks (queries ++ more) = .ok (answers ++ c.asks more, last) ∧
        (LineBuffer.ofSource source).asks (queries ++ .peek k :: more) =
          .ok (answers ++ (.peeked (c.peek k), c.position) :: c.asks more, last)) ∧
      ∀ text, source = .ofText text → ∃ before unread, text = before ++ unread ∧
        c.position = .behind before ∧
        ∃ filled, c.current = (.ok unread.head?, filled) ∧ filled.position = c.position ∧
          ∀ k, filled.peek k = (firstLine unread)[k]? := by
  intro c answers
  obtain ⟨b, asked, shows⟩ := LineBuffer.asks_shows (LineBuffer.ofSource_shows source) queries
  refine ⟨⟨b, asked, shows.honest⟩, ?_, ?_⟩
  · intro k more
    obtain ⟨last, without, withPeek⟩ := shows.asks_peek k more
    refine ⟨last, ?_, ?_⟩
    · rw [LineBuffer.asks_append asked, without]
      rfl
    · rw [LineBuffer.asks_append asked, withPeek]
      rfl
  · rintro text rfl
    exact current_ofText text queries

/-- What a failure has left of a line is in the buffer, and the end of it is the end of the looking
ahead. -/
example :
    let c := (ofSource [.byte 0x61, .byte 0xC3, .byte 0xA9, .failure ⟨.brokenPipe, "gone"⟩,
      .byte 0x62]).afterAsks [.call (.look .current)]
    c.peek 1 = some 'é' ∧ c.peek 2 = none := by
  decide +kernel

end Cursor

end JamTokens
