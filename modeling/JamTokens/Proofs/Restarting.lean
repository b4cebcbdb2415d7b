import JamTokens.Proofs.Sessions
import JamTokens.Proofs.TextFeeds

/-!
# A flush is a restart

After any session on a text a flush leaves the lexer at the start of the next
line, with nothing kept but the symbols.  From there it cannot be told from a
new lexer over the rest of the text, except by its lines, which go on counting.
-/

set_option autoImplicit false

namespace JamTokens

open Grammar

theorem behindLine_split (text : List Char) :
    behindLine text = [] ∨ ∃ line, '\n' ∉ line ∧ text = line ++ '\n' :: behindLine text := by
  rcases comment_split text with one | ⟨line, rest, one, rfl⟩
  · exact Or.inl (behindLine_lastLine one)
  · exact Or.inr ⟨line, one, by rw [behindLine_line one]⟩

namespace Lexer

/-- How many characters of a text have been consumed. -/
def consumed (text : List Char) (l : Lexer) : Nat := text.length - l.cursor.feed.chars.length

/-- The cursor stands in a text: behind some of it, with the rest before it. -/
structure StandsIn (text : List Char) (l : Lexer) : Prop where
  feed : l.cursor.feed <:+ (Source.ofText text).feed
  split : ∃ before, text = before ++ l.cursor.feed.chars ∧ l.cursor.position = .behind before

theorem standsIn_of_session (text : List Char) (calls : List Call) :
    ((ofSource (.ofText text)).afterCalls calls).StandsIn text := by
  have moves := (ofSource (.ofText text)).afterCalls_moves calls
  obtain ⟨feed, split⟩ := Cursor.MovesTo.of_text moves
  exact ⟨feed, split⟩

theorem consumed_eq {text before : List Char} {l : Lexer}
    (h : text = before ++ l.cursor.feed.chars) : l.consumed text = before.length := by
  rw [consumed, congrArg List.length h, List.length_append, Nat.add_sub_cancel]

theorem flush_of_standsIn {text : List Char} {l : Lexer} (h : l.StandsIn text) :
    ∃ line, l.cursor.feed.chars = line ++ behindLine l.cursor.feed.chars ∧
      l.flush = (.ok (), { l with
        scanner := ⟨⟨(Source.ofText (behindLine l.cursor.feed.chars)).feed,
          l.cursor.position.after line⟩, none, l.scanner.start⟩
        peeked := none }) := by
  obtain ⟨passed, left⟩ := Source.takeLine_of_suffix h.feed
  obtain ⟨front, feed, taken⟩ := Feed.takeLine_of l.cursor.feed
  refine ⟨l.cursor.feed.takeLine.taken, ?_, ?_⟩
  · have chars := congrArg Feed.chars feed
    rwa [Feed.chars_append, taken, left, Source.chars_feed] at chars
  · rw [cursor] at passed
    rw [flush, Scanner.flush_eq, ← left]
    simp only [passed]
    rfl

theorem atEnd_of_feed {l : Lexer} (feed : l.cursor.feed = []) (returned : l.scanner.returned = none)
    (peeked : l.peeked = none) : l.AtEnd := by
  refine ⟨?_, ?_, peeked⟩
  · rw [feed]
    trivial
  · intro lexeme start found
    rw [returned] at found
    cases found

/-- A lexer that has nothing left, or stands at the start of a line, goes on as a new one would that
knows its symbols. -/
theorem answers_restarted {l : Lexer} {left : List Char} {lines : Nat}
    (feed : l.cursor.feed = (Source.ofText left).feed) (line : l.cursor.position.line = 1 + lines)
    (begins : left = [] ∨ l.cursor.position.column = 1) (returned : l.scanner.returned = none)
    (peeked : l.peeked = none) (more : List Call) :
    l.answers more =
      ((withSymbols (Source.ofText left).feed l.symbols).answers more).map (Answer.lower lines) := by
  rcases begins with nothing | column
  · have bare : (Source.ofText left).feed = [] := by rw [nothing, Source.feed_nil]
    have new : (withSymbols (Source.ofText left).feed l.symbols).AtEnd := atEnd_of_feed bare rfl rfl
    have old : l.AtEnd := atEnd_of_feed (feed.trans bare) returned peeked
    have same : l.line = 1 + lines := line
    rw [answers_atEnd new, answers_atEnd old, List.map_map, same]
    rfl
  · have position : l.cursor.position = ⟨1 + lines, 1⟩ := by rw [← line, ← column]
    exact below_answers (below_withSymbols feed position returned peeked) more

theorem dropped_ends_line {text line : List Char} (h : text = line ++ behindLine text) :
    behindLine text = [] ∨ EndsLine line := by
  rcases behindLine_split text with nothing | ⟨body, -, parts⟩
  · exact Or.inl nothing
  · have same : line = body ++ ['\n'] := by
      rw [List.append_cons] at parts
      exact List.append_cancel_right (h.symm.trans parts)
    exact Or.inr (by simp [same, EndsLine])

/-- After any session on a text a flush succeeds, and all that follows is what a new lexer with the
same symbols returns on the text behind the line on which the cursor stands, as many lines further
down as there are before it. -/
theorem flush_restarts (text : List Char) (calls : List Call) :
    let l := (ofSource (.ofText text)).afterCalls calls
    let left := behindLine (text.drop (l.consumed text))
    let lines := (text.take (text.length - left.length)).count '\n'
    l.cursor.position = .behind (text.take (l.consumed text)) ∧
      l.flush.1 = .ok () ∧ l.flush.2.line = 1 + lines ∧
      ∀ more, l.flush.2.answers more =
        ((withSymbols (Source.ofText left).feed l.symbols).answers more).map (Answer.lower lines) := by
  intro l left lines
  have stands : l.StandsIn text := standsIn_of_session text calls
  obtain ⟨before, whole, position⟩ := stands.split
  have split := consumed_eq whole
  have front : text.take (l.consumed text) = before := by
    rw [split, whole, List.take_left]
  have same : left = behindLine l.cursor.feed.chars := by
    rw [show left = behindLine (text.drop (l.consumed text)) from rfl, split, whole, List.drop_left]
  obtain ⟨line, unread, flushed⟩ := flush_of_standsIn stands
  have begins := dropped_ends_line unread
  rw [← same] at unread flushed begins
  have passed : text.take (text.length - left.length) = before ++ line := by
    have parts : text = (before ++ line) ++ left := by rw [List.append_assoc, ← unread, ← whole]
    have size : text.length - left.length = (before ++ line).length := by
      rw [congrArg List.length parts, List.length_append, Nat.add_sub_cancel]
    rw [size, parts, List.take_left]
  have behind : l.cursor.position.after line = .behind (before ++ line) := by
    rw [position, Position.behind_append]
  have height : (Position.behind (before ++ line)).line = 1 + lines := by
    rw [show lines = (text.take (text.length - left.length)).count '\n' from rfl, passed,
      Nat.add_comm]
    rfl
  have column : left = [] ∨ (Position.behind (before ++ line)).column = 1 := by
    refine begins.imp id fun ends => ?_
    rw [Position.behind_append, Position.after_endsLine ends]
  rw [behind] at flushed
  rw [front, flushed]
  exact ⟨position, rfl, height, answers_restarted rfl height column rfl rfl⟩

end Lexer

end JamTokens
