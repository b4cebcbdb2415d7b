import JamTokens.Proofs.Readings

/-!
# Moving on along a feed

No call goes back.  Whatever a cursor, a scanner or a lexer is asked for, the
feed that is left is the end of the feed that was there, and the position has
moved on by the characters in front of it, whether the call fails or not.
-/

set_option autoImplicit false

namespace JamTokens

namespace Feed

/-! ## The characters of a feed -/

def chars (feed : Feed) : List Char :=
  feed.filterMap fun
    | .char c => some c
    | _ => none

@[simp] theorem chars_nil : chars [] = [] := rfl

@[simp] theorem chars_char (c : Char) (feed : Feed) : chars (.char c :: feed) = c :: feed.chars := rfl

@[simp] theorem chars_refill (failure : Option Failure) (feed : Feed) :
    chars (.refill failure :: feed) = feed.chars := rfl

@[simp] theorem chars_close (feed : Feed) : chars (.close :: feed) = feed.chars := rfl

@[simp] theorem chars_append (front feed : Feed) :
    chars (front ++ feed) = front.chars ++ feed.chars := List.filterMap_append

@[simp] theorem chars_ofText (text : List Char) : chars (ofText text) = text := by
  induction text with
  | nil => rfl
  | cons c text ih => exact congrArg (c :: ·) ih

/-! ## Runs -/

/-- The run takes the characters of some front of the feed and leaves the rest. -/
def Run.Of (run : Run) (feed : Feed) : Prop :=
  ∃ front : Feed, feed = front ++ run.rest ∧ front.chars = run.taken

theorem Run.of_stay (failure : Option Failure) (feed : Feed) : Run.Of ⟨[], failure, feed⟩ feed :=
  ⟨[], rfl, rfl⟩

theorem Run.Of.cons {run : Run} {feed : Feed} (h : run.Of feed) (c : Char) :
    (run.cons c).Of (.char c :: feed) := by
  obtain ⟨front, rfl, taken⟩ := h
  exact ⟨.char c :: front, rfl, congrArg (c :: ·) taken⟩

theorem Run.Of.refill {run : Run} {feed : Feed} (h : run.Of feed) (failure : Option Failure) :
    run.Of (.refill failure :: feed) := by
  obtain ⟨front, rfl, taken⟩ := h
  exact ⟨.refill failure :: front, rfl, taken⟩

theorem takeGap_of (inComment : Bool) (feed : Feed) : (feed.takeGap inComment).Of feed := by
  fun_induction takeGap inComment feed with
  | case1 c rest ih => exact ih.cons c
  | case2 c rest blank ih => exact ih.cons c
  | case3 c rest notBlank opens ih => exact ih.cons c
  | case4 c rest notBlank notOpen => exact Run.of_stay _ _
  | case5 inComment rest ih => exact ih.refill none
  | case6 inComment f rest => exact (Run.of_stay (some f) rest).refill (some f)
  | case7 inComment rest => exact Run.of_stay _ _
  | case8 inComment => exact Run.of_stay _ _

theorem takeSteps_of {σ : Type} (step : σ → Char → Option σ) (state : σ) (feed : Feed) :
    (feed.takeSteps step state).Of feed := by
  fun_induction takeSteps step state feed with
  | case1 state c rest state' accept ih => exact ih.cons c
  | case2 state c rest refuse => exact Run.of_stay _ _
  | case3 state rest ih => exact ih.refill none
  | case4 state f rest => exact (Run.of_stay (some f) rest).refill (some f)
  | case5 state rest => exact Run.of_stay _ _
  | case6 state => exact Run.of_stay _ _

theorem takeLine_of (feed : Feed) : feed.takeLine.Of feed := by
  fun_induction takeLine feed with
  | case1 rest => exact ⟨[.char '\n'], rfl, rfl⟩
  | case2 c rest other ih => exact ih.cons c
  | case3 rest ih => exact ih.refill none
  | case4 f rest => exact (Run.of_stay (some f) rest).refill (some f)
  | case5 rest => exact Run.of_stay _ _
  | case6 => exact Run.of_stay _ _

end Feed

/-! ## Cursors -/

namespace Cursor

/-- The second cursor is the first one, further on along its feed. -/
def MovesTo (c c' : Cursor) : Prop :=
  ∃ front : Feed, c.feed = front ++ c'.feed ∧ c'.position = c.position.after front.chars

theorem movesTo_refl (c : Cursor) : c.MovesTo c := ⟨[], rfl, rfl⟩

theorem MovesTo.trans {c c' c'' : Cursor} (h : c.MovesTo c') (h' : c'.MovesTo c'') :
    c.MovesTo c'' := by
  obtain ⟨front, feed, position⟩ := h
  obtain ⟨front', feed', position'⟩ := h'
  refine ⟨front ++ front', ?_, ?_⟩
  · rw [feed, feed', List.append_assoc]
  · rw [position', position, Feed.chars_append, Position.after_append]

theorem MovesTo.suffix {c c' : Cursor} (h : c.MovesTo c') : c'.feed <:+ c.feed := by
  obtain ⟨front, feed, _⟩ := h
  exact ⟨front, feed.symm⟩

theorem MovesTo.position_after {c c' : Cursor} (h : c.MovesTo c') :
    c'.position.after c'.feed.chars = c.position.after c.feed.chars := by
  obtain ⟨front, feed, position⟩ := h
  rw [position, feed, Feed.chars_append, Position.after_append]

theorem movesTo_pass {c : Cursor} {run : Feed.Run} (h : run.Of c.feed) : c.MovesTo (c.pass run) := by
  obtain ⟨front, feed, taken⟩ := h
  exact ⟨front, feed, congrArg c.position.after taken.symm⟩

theorem skipLine_moves (c : Cursor) : c.MovesTo c.skipLine.2 := by
  have line := movesTo_pass (Feed.takeLine_of c.feed)
  unfold skipLine
  dsimp only
  cases c.feed.takeLine.failure with
  | some f => exact line
  | none => exact line

end Cursor

/-! ## Scanners -/

namespace Scanner

theorem finish_moves (s : Scanner) (make : String → Lexeme) {run : Feed.Run}
    (h : run.Of s.cursor.feed) : s.cursor.MovesTo (s.finish make run).2.cursor := by
  have moves := Cursor.movesTo_pass h
  unfold finish
  cases run.failure with
  | some f => exact moves
  | none => exact moves

theorem scan_moves (s : Scanner) : s.cursor.MovesTo s.scan.2.cursor := by
  unfold scan
  dsimp only
  split
  · rename_i c rest found
    split
    · exact finish_moves { s with start := s.cursor.position } _ (Feed.takeSteps_of _ _ _)
    · split
      · exact finish_moves { s with start := s.cursor.position } _ (Feed.takeSteps_of _ _ _)
      · exact ⟨[.char c], found, rfl⟩
  · exact Cursor.movesTo_refl _

theorem next_moves (s : Scanner) : s.cursor.MovesTo s.next.2.cursor := by
  have gap := Cursor.movesTo_pass (Feed.takeGap_of false s.cursor.feed)
  unfold next
  cases s.returned with
  | some back => exact Cursor.movesTo_refl _
  | none =>
      dsimp only
      cases (s.cursor.feed.takeGap false).failure with
      | some f => exact gap
      | none =>
          exact gap.trans (scan_moves ⟨s.cursor.pass (s.cursor.feed.takeGap false), none, s.start⟩)

theorem flush_moves (s : Scanner) : s.cursor.MovesTo s.flush.2.cursor := s.cursor.skipLine_moves

end Scanner

/-! ## Lexers -/

namespace Lexer

def cursor (l : Lexer) : Cursor := l.scanner.cursor

theorem pair_moves (l : Lexer) (c : Char) (pairing : Pairing) (start : Position) :
    l.cursor.MovesTo (l.pair c pairing start).2.cursor := by
  have moves := l.scanner.next_moves
  unfold pair
  rcases called : l.scanner.next with ⟨f | follower, s⟩ <;> rw [called] at moves
  · exact moves
  · dsimp only
    split
    · exact moves
    · cases pairing.single with
      | some token => exact moves
      | none => exact moves

theorem ofChar_moves (l : Lexer) (c : Char) (start : Position) :
    l.cursor.MovesTo (l.ofChar c start).2.cursor := by
  unfold ofChar
  cases Token.ofChar? c with
  | some token => exact Cursor.movesTo_refl _
  | none =>
      cases Pairing.ofChar? c with
      | some pairing => exact l.pair_moves c pairing start
      | none => exact Cursor.movesTo_refl _

theorem ofLexeme_moves (l : Lexer) (lexeme : Lexeme) (start : Position) :
    l.cursor.MovesTo (l.ofLexeme lexeme start).2.cursor := by
  cases lexeme with
  | endOfInput => exact Cursor.movesTo_refl _
  | word text => exact Cursor.movesTo_refl _
  | number text =>
      unfold ofLexeme
      dsimp only
      cases Literal.value? text.toList with
      | some value => exact Cursor.movesTo_refl _
      | none => exact Cursor.movesTo_refl _
  | char c =>
      have moves := l.ofChar_moves c start
      unfold ofLexeme
      dsimp only
      rcases made : l.ofChar c start with ⟨e | token, l'⟩
      · rwa [made] at moves
      · rwa [made] at moves

theorem assemble_moves (l : Lexer) : l.cursor.MovesTo l.assemble.2.cursor := by
  have moves := l.scanner.next_moves
  unfold assemble
  rcases called : l.scanner.next with ⟨f | lexeme, s⟩ <;> rw [called] at moves
  · exact moves
  · have further := ofLexeme_moves { l with scanner := s } lexeme s.start
    dsimp only
    rcases made : ofLexeme { l with scanner := s } lexeme s.start with ⟨e | token, l'⟩
    · rw [made] at further
      exact moves.trans further
    · rw [made] at further
      exact moves.trans further

theorem read_moves (l : Lexer) : l.cursor.MovesTo l.read.2.cursor := by
  have moves := l.assemble_moves
  unfold read
  cases l.peeked with
  | some next => exact Cursor.movesTo_refl _
  | none =>
      dsimp only
      rcases made : l.assemble with ⟨e | (_ | ⟨token, start⟩), l'⟩
      · rwa [made] at moves
      · rwa [made] at moves
      · rw [made] at moves
        exact moves

theorem peek_moves (l : Lexer) : l.cursor.MovesTo l.peek.2.cursor := by
  have moves := l.assemble_moves
  unfold peek
  cases l.peeked with
  | some next => exact Cursor.movesTo_refl _
  | none =>
      dsimp only
      rcases made : l.assemble with ⟨e | next, l'⟩
      · rwa [made] at moves
      · rw [made] at moves
        exact moves

theorem flush_moves (l : Lexer) : l.cursor.MovesTo l.flush.2.cursor := by
  have moves := l.scanner.flush_moves
  unfold flush
  rcases called : l.scanner.flush with ⟨f | _, s⟩ <;> rw [called] at moves
  · exact moves
  · exact moves

end Lexer

end JamTokens
