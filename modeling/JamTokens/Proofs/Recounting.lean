import JamTokens.Proofs.Assembly

/-!
# Counting in another way

The same input can be read with its positions counted in another way, from a
line further down or with counters that come round.  As long as each place of
the one way gives the place of the other, and this goes on from character to
character, both ways return the same tokens and the same errors, each with its
place recounted.

Where the latest lexeme starts is no part of the relation.  A call that returns
a lexeme sets that place anew, so what came before is never seen.
-/

set_option autoImplicit false

namespace JamTokens

/-- Two ways of counting, and the places of the one for the places of the other. -/
structure Recount where
  here : Counting
  there : Counting
  place : Position → Position
  step : ∀ p c, @Position.step there (place p) c = place (@Position.step here p c)

theorem Recount.after (r : Recount) (p : Position) (text : List Char) :
    @Position.after r.there (r.place p) text = r.place (@Position.after r.here p text) := by
  induction text generalizing p with
  | nil => rfl
  | cons c text ih =>
      rw [@Position.after_cons r.there, r.step, ih, @Position.after_cons r.here]

/-- The places of counters of 32 bits for those of counters without an end. -/
def Recount.wrapping : Recount where
  here := .endless
  there := .wrapping
  place p := ⟨p.line % UInt32.size, p.column % UInt32.size⟩
  step p c := by
    have goesOn (n : Nat) : @Counting.succ .wrapping (n % UInt32.size) = (n + 1) % UInt32.size := by
      rw [Counting.succ_wrapping, Nat.mod_add_mod]
    unfold Position.step
    split
    · exact congrArg (Position.mk · 1) (goesOn p.line)
    · exact congrArg (Position.mk (p.line % UInt32.size)) (goesOn p.column)

def LexError.recount (r : Recount) : LexError → LexError
  | numericOverflow literal p => numericOverflow literal (r.place p)
  | illegalCharacter c p => illegalCharacter c (r.place p)
  | illegalOperatorSequence sequence p => illegalOperatorSequence sequence (r.place p)
  | input failure => input failure

def Item.recount (r : Recount) : Item → Item
  | token t start => token t (r.place start)
  | error e => error (e.recount r)

def Recount.start {α : Type} (r : Recount) (placed : α × Position) : α × Position :=
  (placed.1, r.place placed.2)

variable {r : Recount}

/-! ## Scanners -/

namespace Scanner

variable {s t : Scanner}

structure Recounted (r : Recount) (s t : Scanner) : Prop where
  feed : t.cursor.feed = s.cursor.feed
  position : t.cursor.position = r.place s.cursor.position
  returned : t.returned = s.returned.map r.start

/-- The same outcome, and behind a lexeme also the same start. -/
structure RecountedBy (r : Recount) (outcome other : Except Failure Lexeme × Scanner) : Prop where
  result : other.1 = outcome.1
  scanner : Recounted r outcome.2 other.2
  start : ∀ lexeme, outcome.1 = .ok lexeme → other.2.start = r.place outcome.2.start

theorem RecountedBy.outcome {result : Except Failure Lexeme}
    {other : Except Failure Lexeme × Scanner} (h : RecountedBy r (result, s) other) :
    ∃ t, other = (result, t) ∧ Recounted r s t ∧
      ∀ lexeme, result = .ok lexeme → t.start = r.place s.start :=
  ⟨other.2, Prod.ext h.result rfl, h.scanner, h.start⟩

theorem recounted_pass (h : Recounted r s t) (run : Feed.Run) :
    Recounted r { s with cursor := @Cursor.pass r.here s.cursor run }
      { t with cursor := @Cursor.pass r.there t.cursor run } := by
  refine ⟨rfl, ?_, h.returned⟩
  simp only [Cursor.pass]
  rw [h.position, r.after]

theorem recounted_finish (h : Recounted r s t) (start : t.start = r.place s.start)
    (make : String → Lexeme) (run : Feed.Run) :
    RecountedBy r (@finish r.here s make run) (@finish r.there t make run) := by
  have passed := recounted_pass h run
  unfold finish
  cases run.failure with
  | some f => exact ⟨rfl, passed, fun _ _ => start⟩
  | none => exact ⟨rfl, passed, fun _ _ => start⟩

theorem recounted_scan (h : Recounted r s t) :
    RecountedBy r (@scan r.here s) (@scan r.there t) := by
  have moved : Recounted r { s with start := s.cursor.position }
      { t with start := t.cursor.position } := ⟨h.feed, h.position, h.returned⟩
  unfold scan
  simp only [h.feed]
  split
  · rename_i c rest _
    split
    · exact recounted_finish moved h.position _ _
    · split
      · exact recounted_finish moved h.position _ _
      · refine ⟨rfl, ⟨rfl, ?_, h.returned⟩, fun _ _ => h.position⟩
        simp only []
        rw [h.position, r.step]
  · exact ⟨rfl, moved, fun _ _ => h.position⟩

theorem recounted_next (h : Recounted r s t) :
    RecountedBy r (@next r.here s) (@next r.there t) := by
  have returned := h.returned
  unfold next
  cases found : s.returned with
  | some back =>
      obtain ⟨lexeme, start⟩ := back
      rw [found] at returned
      rw [returned]
      exact ⟨rfl, ⟨h.feed, h.position, rfl⟩, fun _ _ => rfl⟩
  | none =>
      rw [found] at returned
      rw [returned]
      dsimp only [Option.map_none]
      rw [h.feed]
      have passed := recounted_pass h (s.cursor.feed.takeGap false)
      cases (s.cursor.feed.takeGap false).failure with
      | some f =>
          exact ⟨rfl, ⟨passed.feed, passed.position, rfl⟩, fun _ failed => nomatch failed⟩
      | none => exact recounted_scan ⟨passed.feed, passed.position, rfl⟩

theorem recounted_handBack (h : Recounted r s t) (start : t.start = r.place s.start)
    (lexeme : Lexeme) : Recounted r (s.handBack lexeme) (t.handBack lexeme) := by
  refine ⟨h.feed, h.position, ?_⟩
  simp only [handBack, start]
  rfl

theorem flush_eq [Counting] (s : Scanner) :
    s.flush =
      (match s.cursor.feed.takeLine.failure with
        | some f => .error f
        | none => .ok (),
      ⟨s.cursor.pass s.cursor.feed.takeLine, none, s.start⟩) := by
  unfold flush Cursor.skipLine
  dsimp only
  cases s.cursor.feed.takeLine.failure with
  | some f => rfl
  | none => rfl

theorem recounted_flush (h : Recounted r s t) :
    (@flush r.there t).1 = (@flush r.here s).1 ∧
      Recounted r (@flush r.here s).2 (@flush r.there t).2 := by
  have passed := recounted_pass h s.cursor.feed.takeLine
  rw [@flush_eq r.there, @flush_eq r.here, h.feed]
  exact ⟨rfl, passed.feed, passed.position, rfl⟩

end Scanner

/-! ## Lexers -/

namespace Lexer

variable {l m : Lexer}

structure Recounted (r : Recount) (l m : Lexer) : Prop where
  scanner : Scanner.Recounted r l.scanner m.scanner
  symbols : m.symbols = l.symbols
  peeked : m.peeked = l.peeked.map r.start

structure RecountedBy {α : Type} (r : Recount) (value : α → α)
    (outcome other : Except LexError α × Lexer) : Prop where
  result : other.1 = (outcome.1.mapError (LexError.recount r)).map value
  lexer : Recounted r outcome.2 other.2

theorem RecountedBy.outcome {α : Type} {value : α → α} {result : Except LexError α}
    {other : Except LexError α × Lexer} (h : RecountedBy r value (result, l) other) :
    ∃ m, other = ((result.mapError (LexError.recount r)).map value, m) ∧ Recounted r l m :=
  ⟨other.2, Prod.ext h.result rfl, h.lexer⟩

theorem unpaired_recount (r : Recount) (c : Char) (follower : Lexeme) (start : Position) :
    unpaired c follower (r.place start) = (unpaired c follower start).recount r := by
  cases follower with
  | endOfInput => rfl
  | word text => rfl
  | number text => rfl
  | char d => rfl

theorem recounted_pair (h : Recounted r l m) (c : Char) (pairing : Pairing) (start : Position) :
    RecountedBy r id (@pair r.here l c pairing start)
      (@pair r.there m c pairing (r.place start)) := by
  have next := Scanner.recounted_next h.scanner
  rcases called : @Scanner.next r.here l.scanner with ⟨result, s⟩
  rw [called] at next
  obtain ⟨t, called', scanner, begins⟩ := next.outcome
  unfold pair
  rw [called, called']
  cases result with
  | error f => exact ⟨rfl, scanner, h.symbols, h.peeked⟩
  | ok follower =>
      dsimp only
      have back := Scanner.recounted_handBack scanner (begins follower rfl) follower
      split
      · exact ⟨rfl, scanner, h.symbols, h.peeked⟩
      · cases pairing.single with
        | some token => exact ⟨rfl, back, h.symbols, h.peeked⟩
        | none =>
            refine ⟨?_, back, h.symbols, h.peeked⟩
            dsimp only
            rw [unpaired_recount]
            rfl

theorem recounted_ofChar (h : Recounted r l m) (c : Char) (start : Position) :
    RecountedBy r id (@ofChar r.here l c start) (@ofChar r.there m c (r.place start)) := by
  unfold ofChar
  cases Token.ofChar? c with
  | some token => exact ⟨rfl, h⟩
  | none =>
      cases Pairing.ofChar? c with
      | some pairing => exact recounted_pair h c pairing start
      | none => exact ⟨rfl, h⟩

theorem recounted_ofLexeme (h : Recounted r l m) (lexeme : Lexeme) (start : Position) :
    RecountedBy r id (@ofLexeme r.here l lexeme start)
      (@ofLexeme r.there m lexeme (r.place start)) := by
  cases lexeme with
  | endOfInput => exact ⟨rfl, h⟩
  | word text =>
      unfold ofLexeme
      rw [h.symbols]
      exact ⟨rfl, h.scanner, rfl, h.peeked⟩
  | number text =>
      unfold ofLexeme
      dsimp only
      cases Literal.value? text.toList with
      | some value => exact ⟨rfl, h⟩
      | none => exact ⟨rfl, h⟩
  | char c =>
      have made := recounted_ofChar h c start
      rcases called : @ofChar r.here l c start with ⟨result, l'⟩
      rw [called] at made
      obtain ⟨m', called', lexer⟩ := made.outcome
      unfold ofLexeme
      dsimp only
      rw [called, called']
      cases result with
      | error e => exact ⟨rfl, lexer⟩
      | ok token => exact ⟨rfl, lexer⟩

theorem recounted_assemble (h : Recounted r l m) :
    RecountedBy r (Option.map r.start) (@assemble r.here l) (@assemble r.there m) := by
  have next := Scanner.recounted_next h.scanner
  rcases called : @Scanner.next r.here l.scanner with ⟨result, s⟩
  rw [called] at next
  obtain ⟨t, called', scanner, begins⟩ := next.outcome
  unfold assemble
  rw [called, called']
  cases result with
  | error f => exact ⟨rfl, scanner, h.symbols, h.peeked⟩
  | ok lexeme =>
      dsimp only
      have moved : Recounted r { l with scanner := s } { m with scanner := t } :=
        ⟨scanner, h.symbols, h.peeked⟩
      have made := recounted_ofLexeme moved lexeme s.start
      rcases called : @ofLexeme r.here { l with scanner := s } lexeme s.start with ⟨result, l'⟩
      rw [called] at made
      obtain ⟨m', called', lexer⟩ := made.outcome
      rw [begins lexeme rfl, called']
      rcases result with e | (_ | token)
      · exact ⟨rfl, lexer⟩
      · exact ⟨rfl, lexer⟩
      · exact ⟨rfl, lexer⟩

theorem recounted_read (h : Recounted r l m) :
    RecountedBy r id (@read r.here l) (@read r.there m) ∧
      ∀ token, (@read r.here l).1 = .ok (some token) →
        (@read r.there m).2.position = r.place (@read r.here l).2.position := by
  have peeked := h.peeked
  unfold read
  cases found : l.peeked with
  | some next =>
      obtain ⟨token, start⟩ := next
      rw [found] at peeked
      rw [peeked]
      exact ⟨⟨rfl, h.scanner, h.symbols, rfl⟩, fun _ _ => rfl⟩
  | none =>
      rw [found] at peeked
      rw [peeked]
      dsimp only [Option.map_none]
      have made := recounted_assemble h
      rcases called : @assemble r.here l with ⟨result, l'⟩
      rw [called] at made
      obtain ⟨m', called', lexer⟩ := made.outcome
      rw [called']
      rcases result with e | (_ | ⟨token, start⟩)
      · exact ⟨⟨rfl, lexer⟩, fun _ failed => nomatch failed⟩
      · exact ⟨⟨rfl, lexer⟩, fun _ nothing => nomatch nothing⟩
      · exact ⟨⟨rfl, lexer.scanner, lexer.symbols, lexer.peeked⟩, fun _ _ => rfl⟩

theorem recounted_peek (h : Recounted r l m) :
    RecountedBy r id (@peek r.here l) (@peek r.there m) := by
  have peeked := h.peeked
  unfold peek
  cases found : l.peeked with
  | some next =>
      obtain ⟨token, start⟩ := next
      rw [found] at peeked
      rw [peeked]
      exact ⟨rfl, h⟩
  | none =>
      rw [found] at peeked
      rw [peeked]
      dsimp only [Option.map_none]
      have made := recounted_assemble h
      rcases called : @assemble r.here l with ⟨result, l'⟩
      rw [called] at made
      obtain ⟨m', called', lexer⟩ := made.outcome
      rw [called']
      rcases result with e | (_ | next)
      · exact ⟨rfl, lexer⟩
      · exact ⟨rfl, lexer.scanner, lexer.symbols, rfl⟩
      · exact ⟨rfl, lexer.scanner, lexer.symbols, rfl⟩

theorem recounted_flush (h : Recounted r l m) :
    RecountedBy r id (@flush r.here l) (@flush r.there m) := by
  obtain ⟨result, scanner⟩ := Scanner.recounted_flush h.scanner
  unfold flush
  rcases called : @Scanner.flush r.here l.scanner with ⟨outcome, s⟩
  rcases called' : @Scanner.flush r.there m.scanner with ⟨outcome', t⟩
  rw [called, called'] at result scanner
  dsimp only at result scanner
  subst result
  cases outcome' with
  | error f => exact ⟨rfl, scanner, h.symbols, rfl⟩
  | ok _ => exact ⟨rfl, scanner, h.symbols, rfl⟩

/-! ## Items -/

theorem recounted_items (h : Recounted r l m) :
    (@items r.there .readOn m).1 = (@items r.here .readOn l).1.map (Item.recount r) ∧
      (@items r.there .readOn m).2.symbols = (@items r.here .readOn l).2.symbols := by
  generalize size : l.work = n
  induction n using Nat.strongRecOn generalizing l m with
  | ind n ih =>
      obtain ⟨made, begins⟩ := recounted_read h
      have less := @read_work_lt r.here l
      rcases called : @read r.here l with ⟨result, l'⟩
      rw [called] at made begins less
      obtain ⟨m', called', lexer⟩ := made.outcome
      rw [called'] at begins
      rw [size] at less
      rcases result with e | (_ | token)
      · obtain ⟨sameItems, sameSymbols⟩ := ih _ (less (by simp)) lexer rfl
        rw [@items_readOn_of_error r.here _ _ _ called,
          @items_readOn_of_error r.there _ _ _ called', sameItems]
        exact ⟨rfl, sameSymbols⟩
      · rw [@items_of_end r.here _ _ .readOn called, @items_of_end r.there _ _ .readOn called']
        exact ⟨rfl, lexer.symbols⟩
      · obtain ⟨sameItems, sameSymbols⟩ := ih _ (less (by simp)) lexer rfl
        rw [@items_of_token r.here _ _ .readOn _ called,
          @items_of_token r.there _ _ .readOn _ called', sameItems, begins token rfl]
        exact ⟨rfl, sameSymbols⟩

end Lexer

end JamTokens
