import JamTokens.Proofs.LexemeTexts
import JamTokens.Proofs.Lines

/-!
# Places in the order of a session

The tokens that a session reads and the errors that it meets are told each with
its place, and these places come further and further down the input.

A place is kept in one of three stores before it is told: where the latest lexeme
starts, where a lexeme starts that was handed back, where a token starts that was
looked at.  So a scanner, and a lexer, is said to be beyond a place if all that
it has in store and all that it has yet to read starts behind that place.  Each
call leaves the lexer beyond the place that it tells.
-/

set_option autoImplicit false

namespace JamTokens

/-- The place that a call tells: where the token starts that was read, or where the error is. -/
def Answer.place? (a : Answer) : Option Position :=
  match a.result with
  | .ok _ => a.start
  | .error e => e.position?

theorem Position.Precedes.after {p q : Position} (h : p.Precedes q) (text : List Char) :
    p.Precedes (q.after text) := by
  cases text with
  | nil => exact h
  | cons c text => exact h.trans (q.precedes_after c text)

/-! ## What a call of a scanner can come to -/

namespace Scanner

def ahead (s : Scanner) : Position :=
  s.cursor.position.after (s.cursor.feed.takeGap false).taken

theorem finish_characters {s s' : Scanner} {make : String → Lexeme} {run : Feed.Run}
    {lexeme : Lexeme} (own : ∀ text, (make text).characters = text.toList)
    (h : s.finish make run = (.ok lexeme, s')) :
    s'.cursor.position = s.cursor.position.after lexeme.characters := by
  cases failed : run.failure with
  | some f =>
      simp only [finish, failed] at h
      cases h
  | none =>
      simp only [finish, failed] at h
      cases h
      rw [own, String.toList_ofList]
      rfl

/-- A lexeme that is scanned reaches from its start to where the cursor stands behind it. -/
theorem scan_characters {s s' : Scanner} {lexeme : Lexeme} (h : s.scan = (.ok lexeme, s')) :
    s'.cursor.position = s.cursor.position.after lexeme.characters := by
  unfold scan at h
  dsimp only at h
  split at h
  · split at h
    · exact finish_characters (s := { s with start := s.cursor.position }) (fun _ => rfl) h
    · split at h
      · exact finish_characters (s := { s with start := s.cursor.position }) (fun _ => rfl) h
      · cases h
        rfl
  · cases h
    rfl

theorem scan_start (s : Scanner) : s.scan.2.start = s.cursor.position := by
  have finished : ∀ make run,
      (finish { s with start := s.cursor.position } make run).2.start = s.cursor.position := by
    intro make run
    unfold finish
    cases run.failure with
    | some f => rfl
    | none => rfl
  unfold scan
  dsimp only
  split
  · split
    · apply finished
    · split
      · apply finished
      · rfl
  · rfl

/-- What a call can come to: a lexeme that had been handed back, a failure in the gap, a failure in
a word or a number, or a lexeme that is scanned.  The last two both note where they have begun. -/
inductive Comes (s : Scanner) : Prop
  | again {lexeme : Lexeme} {start : Position} (found : s.returned = some (lexeme, start))
      (called : s.next = (.ok lexeme, { s with returned := none, start := start }))
  | inGap {f : Failure} {s' : Scanner} (free : s.returned = none)
      (failed : (s.cursor.feed.takeGap false).failure = some f) (called : s.next = (.error f, s'))
      (start : s'.start = s.start)
  | inLexeme {f : Failure} {s' : Scanner} (free : s.returned = none)
      (passed : (s.cursor.feed.takeGap false).failure = none) (called : s.next = (.error f, s'))
      (start : s'.start = s.ahead)
  | scanned {lexeme : Lexeme} {s' : Scanner} (free : s.returned = none)
      (called : s.next = (.ok lexeme, s')) (start : s'.start = s.ahead)
      (characters : s'.cursor.position = s.ahead.after lexeme.characters)

theorem comes (s : Scanner) : s.Comes := by
  cases found : s.returned with
  | some back =>
      apply Comes.again found
      simp only [next, found]
  | none =>
      cases failed : (s.cursor.feed.takeGap false).failure with
      | some f => exact .inGap found failed (next_of_failed_gap found failed) rfl
      | none =>
          have gap := next_of_gap found failed
          have start := scan_start { s with cursor := s.cursor.pass (s.cursor.feed.takeGap false) }
          rw [← gap] at start
          cases called : s.next with
          | mk result s' =>
              rw [called] at gap start
              cases result with
              | error f => exact .inLexeme found failed called start
              | ok lexeme => exact .scanned found called start (scan_characters gap.symm)

theorem precedes_of_next {s s' : Scanner} {lexeme : Lexeme} (free : s.returned = none)
    (called : s.next = (.ok lexeme, s'))
    (characters : s'.cursor.position = s.ahead.after lexeme.characters)
    (more : lexeme ≠ .endOfInput) : s.ahead.Precedes s'.cursor.position := by
  have proper := next_proper (orderly_of_returned_none free) called
  obtain ⟨c, text, split⟩ := List.exists_cons_of_ne_nil (proper.characters_ne_nil more)
  rw [characters, split]
  apply Position.precedes_after

/-! ## Scanners beyond a place -/

/-- All that the scanner has yet to hand out starts behind the place. -/
structure Beyond (s : Scanner) (p : Position) : Prop where
  cursor : p.Precedes s.cursor.position
  returned : ∀ lexeme start, s.returned = some (lexeme, start) →
    p.Precedes start ∧ (lexeme ≠ .endOfInput → start.Precedes s.cursor.position)

theorem beyond_of_returned_none {s : Scanner} {p : Position} (h : s.returned = none)
    (cursor : p.Precedes s.cursor.position) : s.Beyond p where
  cursor := cursor
  returned lexeme start found := by
    rw [h] at found
    cases found

theorem Beyond.of_precedes {s : Scanner} {p q : Position} (h : s.Beyond q) (order : p.Precedes q) :
    s.Beyond p where
  cursor := order.trans h.cursor
  returned lexeme start found := by
    obtain ⟨behind, inside⟩ := h.returned lexeme start found
    exact ⟨order.trans behind, inside⟩

/-- A call hands out a lexeme that starts behind the place, and leaves the scanner beyond that. -/
theorem next_beyond {s : Scanner} {p : Position} (h : s.Beyond p) :
    s.next.2.Beyond p ∧
      ∀ lexeme, s.next.1 = .ok lexeme → p.Precedes s.next.2.start ∧
        (lexeme ≠ .endOfInput → s.next.2.Beyond s.next.2.start) := by
  have returned := s.next_returned
  have moved : p.Precedes s.next.2.cursor.position := by
    obtain ⟨front, -, position⟩ := s.next_moves
    rw [position]
    exact h.cursor.after _
  refine ⟨beyond_of_returned_none returned moved, ?_⟩
  intro lexeme ok
  cases s.comes with
  | @again lexeme' start found called =>
      obtain ⟨behind, inside⟩ := h.returned lexeme' start found
      rw [called] at ok returned ⊢
      cases ok
      exact ⟨behind, fun more => beyond_of_returned_none returned (inside more)⟩
  | inGap free failed called start =>
      rw [called] at ok
      cases ok
  | inLexeme free passed called start =>
      rw [called] at ok
      cases ok
  | scanned free called start characters =>
      rw [called] at ok returned ⊢
      cases ok
      dsimp only
      rw [start]
      refine ⟨h.cursor.after _, fun more => beyond_of_returned_none returned ?_⟩
      exact precedes_of_next free called characters more

theorem flush_beyond {s : Scanner} {p : Position} (h : s.Beyond p) : s.flush.2.Beyond p := by
  rw [flush_eq]
  exact beyond_of_returned_none rfl (h.cursor.after _)

end Scanner

/-! ## Lexers -/

namespace Lexer

/-- All that the lexer has yet to make tokens of starts behind the place, and so does the token
looked at. -/
structure Beyond (l : Lexer) (p : Position) : Prop where
  scanner : l.scanner.Beyond p
  peeked : ∀ token start, l.peeked = some (token, start) →
    p.Precedes start ∧ l.scanner.Beyond start

theorem beyond_of_peeked_none {l : Lexer} {p : Position} (h : l.peeked = none)
    (scanner : l.scanner.Beyond p) : l.Beyond p where
  scanner := scanner
  peeked token start found := by
    rw [h] at found
    cases found

/-- The scanner is still beyond the start of the lexeme, and an error that has a place is there. -/
def StaysBeyond {α : Type} (start : Position) (outcome : Except LexError α × Lexer) : Prop :=
  outcome.2.scanner.Beyond start ∧ ∀ e, outcome.1 = .error e → ∀ q ∈ e.position?, q = start

theorem staysBeyond_ok {α : Type} {l : Lexer} {start : Position} (h : l.scanner.Beyond start)
    (value : α) : StaysBeyond start (.ok value, l) :=
  ⟨h, fun _ failed => nomatch failed⟩

theorem staysBeyond_error {α : Type} {l : Lexer} {start : Position} {e : LexError}
    (h : l.scanner.Beyond start) (place : ∀ q ∈ e.position?, q = start) :
    StaysBeyond (α := α) start (.error e, l) := by
  refine ⟨h, ?_⟩
  intro e' failed
  cases failed
  exact place

theorem position?_unpaired (c : Char) (follower : Lexeme) (start : Position) :
    (unpaired c follower start).position? = some start := by
  cases follower with
  | _ => rfl

theorem pair_beyond {l : Lexer} {start : Position} (h : l.scanner.Beyond start) (c : Char)
    (pairing : Pairing) : StaysBeyond start (l.pair c pairing start) := by
  obtain ⟨beyond, handed⟩ := Scanner.next_beyond h
  unfold pair
  rcases called : l.scanner.next with ⟨f | follower, s⟩ <;> rw [called] at beyond handed
  · exact staysBeyond_error beyond fun q place => absurd place (Option.not_mem_none q)
  · dsimp only at beyond handed ⊢
    obtain ⟨behind, inside⟩ := handed follower rfl
    split
    · exact staysBeyond_ok beyond _
    · have back : (s.handBack follower).Beyond start := by
        refine ⟨beyond.cursor, ?_⟩
        intro lexeme start' found
        cases found
        exact ⟨behind, fun more => (inside more).cursor⟩
      cases pairing.single with
      | some token => exact staysBeyond_ok back _
      | none =>
          apply staysBeyond_error back
          intro q place
          rw [position?_unpaired] at place
          exact (Option.some.inj place).symm

theorem ofChar_beyond {l : Lexer} {start : Position} (h : l.scanner.Beyond start) (c : Char) :
    StaysBeyond start (l.ofChar c start) := by
  unfold ofChar
  cases Token.ofChar? c with
  | some token => exact staysBeyond_ok h _
  | none =>
      cases Pairing.ofChar? c with
      | some pairing => exact pair_beyond h c pairing
      | none => exact staysBeyond_error h fun q place => (Option.some.inj place).symm

theorem ofLexeme_beyond {l : Lexer} {start : Position} (h : l.scanner.Beyond start)
    (lexeme : Lexeme) : StaysBeyond start (l.ofLexeme lexeme start) := by
  cases lexeme with
  | endOfInput => exact staysBeyond_ok h _
  | word text => exact staysBeyond_ok h _
  | number text =>
      unfold ofLexeme
      dsimp only
      cases Literal.value? text.toList with
      | some value => exact staysBeyond_ok h _
      | none => exact staysBeyond_error h fun q place => (Option.some.inj place).symm
  | char c =>
      obtain ⟨beyond, place⟩ := ofChar_beyond h c
      unfold ofLexeme
      dsimp only
      rcases made : l.ofChar c start with ⟨e | token, l'⟩ <;> rw [made] at beyond place
      · exact staysBeyond_error beyond (place e rfl)
      · exact staysBeyond_ok beyond _

def placeMade : Except LexError (Option (Token × Position)) → Option Position
  | .ok next => next.map (·.2)
  | .error e => e.position?

theorem assemble_beyond {l : Lexer} {p : Position} (h : l.scanner.Beyond p) :
    l.assemble.2.scanner.Beyond p ∧
      ∀ q ∈ placeMade l.assemble.1, p.Precedes q ∧ l.assemble.2.scanner.Beyond q := by
  obtain ⟨beyond, handed⟩ := Scanner.next_beyond h
  rcases called : l.scanner.next with ⟨f | lexeme, s⟩ <;> rw [called] at beyond handed
  · unfold assemble
    rw [called]
    exact ⟨beyond, fun q place => absurd place (Option.not_mem_none q)⟩
  · by_cases atEnd : lexeme = .endOfInput
    · subst atEnd
      rw [assemble_of_next_end called]
      exact ⟨beyond, fun q place => absurd place (Option.not_mem_none q)⟩
    · obtain ⟨behind, inside⟩ := handed lexeme rfl
      obtain ⟨stays, place⟩ := ofLexeme_beyond (l := { l with scanner := s }) (inside atEnd) lexeme
      unfold assemble
      rw [called]
      dsimp only at behind stays place ⊢
      rcases made : ofLexeme { l with scanner := s } lexeme s.start with ⟨e | token, l'⟩ <;>
        rw [made] at stays place
      · refine ⟨stays.of_precedes behind, ?_⟩
        intro q told
        rw [place e rfl q told]
        exact ⟨behind, stays⟩
      · refine ⟨stays.of_precedes behind, ?_⟩
        intro q told
        obtain ⟨next, made, rfl⟩ := Option.map_eq_some_iff.mp told
        obtain ⟨token, -, rfl⟩ := Option.map_eq_some_iff.mp made
        exact ⟨behind, stays⟩

/-! ## Sessions -/

theorem read_beyond {l : Lexer} {p : Position} (h : l.Beyond p) :
    l.read.2.Beyond p ∧ ∀ q ∈ (l.answer .read).place?, p.Precedes q ∧ l.read.2.Beyond q := by
  cases looked : l.peeked with
  | some next =>
      obtain ⟨token, start⟩ := next
      obtain ⟨behind, beyond⟩ := h.peeked token start looked
      have called : l.read = (.ok (some token), { l with peeked := none, position := start }) := by
        simp [read, looked]
      unfold answer startRead call
      rw [called]
      refine ⟨beyond_of_peeked_none rfl h.scanner, ?_⟩
      intro q told
      cases told
      exact ⟨behind, beyond_of_peeked_none rfl beyond⟩
  | none =>
      obtain ⟨beyond, place⟩ := assemble_beyond h.scanner
      obtain ⟨fresh, -⟩ := l.assemble_work
      rw [looked] at fresh
      unfold answer startRead call read
      rw [looked]
      dsimp only
      rcases made : l.assemble with ⟨e | (_ | ⟨token, start⟩), l'⟩ <;>
        rw [made] at beyond place fresh
      · refine ⟨beyond_of_peeked_none fresh beyond, ?_⟩
        intro q told
        exact (place q told).imp_right (beyond_of_peeked_none fresh)
      · exact ⟨beyond_of_peeked_none fresh beyond, fun q told => absurd told (Option.not_mem_none q)⟩
      · refine ⟨beyond_of_peeked_none fresh beyond, ?_⟩
        intro q told
        exact (place q told).imp_right (beyond_of_peeked_none fresh)

theorem peek_beyond {l : Lexer} {p : Position} (h : l.Beyond p) :
    l.peek.2.Beyond p ∧ ∀ q ∈ (l.answer .peek).place?, p.Precedes q ∧ l.peek.2.Beyond q := by
  cases looked : l.peeked with
  | some next =>
      have called : l.peek = (.ok (some next.1), l) := by simp [peek, looked]
      unfold answer startRead call
      rw [called]
      exact ⟨h, fun q told => absurd told (Option.not_mem_none q)⟩
  | none =>
      obtain ⟨beyond, place⟩ := assemble_beyond h.scanner
      obtain ⟨fresh, -⟩ := l.assemble_work
      rw [looked] at fresh
      unfold answer startRead call peek
      rw [looked]
      dsimp only
      rcases made : l.assemble with ⟨e | next, l'⟩ <;> rw [made] at beyond place fresh
      · refine ⟨beyond_of_peeked_none fresh beyond, ?_⟩
        intro q told
        exact (place q told).imp_right (beyond_of_peeked_none fresh)
      · refine ⟨⟨beyond, ?_⟩, fun q told => absurd told (Option.not_mem_none q)⟩
        -- the token looked at keeps the place that it was made with
        intro token start found
        apply place start
        dsimp only at found
        rw [found]
        rfl

theorem flush_beyond {l : Lexer} {p : Position} (h : l.Beyond p) :
    l.flush.2.Beyond p ∧ (l.answer .flush).place? = none := by
  have beyond := Scanner.flush_beyond h.scanner
  unfold answer startRead call flush
  rcases called : l.scanner.flush with ⟨f | _, s⟩ <;> rw [called] at beyond
  · exact ⟨beyond_of_peeked_none rfl beyond, rfl⟩
  · exact ⟨beyond_of_peeked_none rfl beyond, rfl⟩

/-- A call tells a place that lies behind the one before, if it tells any. -/
theorem call_beyond {l : Lexer} {p : Position} (h : l.Beyond p) (c : Call) :
    (l.call c).2.Beyond p ∧
      ∀ q ∈ (l.answer c).place?, p.Precedes q ∧ (l.call c).2.Beyond q := by
  cases c with
  | read => exact read_beyond h
  | peek => exact peek_beyond h
  | flush =>
      obtain ⟨beyond, nowhere⟩ := flush_beyond h
      refine ⟨beyond, ?_⟩
      rw [nowhere]
      exact fun q told => absurd told (Option.not_mem_none q)

theorem answers_beyond {l : Lexer} {p : Position} (h : l.Beyond p) (calls : List Call) :
    (∀ q ∈ (l.answers calls).filterMap Answer.place?, p.Precedes q) ∧
      ((l.answers calls).filterMap Answer.place?).Pairwise Position.Precedes := by
  induction calls generalizing l p with
  | nil => exact ⟨(fun q told => nomatch told), .nil⟩
  | cons c calls ih =>
      obtain ⟨beyond, place⟩ := call_beyond h c
      rw [answers, List.filterMap_cons]
      cases told : (l.answer c).place? with
      | none => exact ih beyond
      | some q =>
          obtain ⟨behind, further⟩ := place q told
          obtain ⟨later, sorted⟩ := ih further
          refine ⟨?_, .cons later sorted⟩
          intro q' member
          rcases List.mem_cons.mp member with rfl | member
          · exact behind
          · exact behind.trans (later q' member)

theorem answers_line {l : Lexer} {p : Position} (h : l.Beyond p) (calls : List Call) :
    ∀ a ∈ l.answers calls, ∀ q ∈ a.place?, q.line ≤ a.line := by
  induction calls generalizing l with
  | nil => exact fun a member => nomatch member
  | cons c calls ih =>
      obtain ⟨beyond, place⟩ := call_beyond h c
      intro a member q told
      rcases List.mem_cons.mp member with rfl | later
      · obtain ⟨-, further⟩ := place q told
        exact further.scanner.cursor.line_le
      · exact ih beyond a later q told

theorem beyond_ofSource (source : Source) : (ofSource source).Beyond ⟨0, 0⟩ :=
  beyond_of_peeked_none rfl (Scanner.beyond_of_returned_none rfl (Or.inl Nat.zero_lt_one))

/-- Whatever the source does and whatever is asked of the lexer, the places that are told lie one
behind the other, and none is on a line that has not been reached when it is told. -/
theorem places_increase (source : Source) (calls : List Call) :
    (((ofSource source).answers calls).filterMap Answer.place?).Pairwise Position.Precedes ∧
      ∀ a ∈ (ofSource source).answers calls, ∀ q ∈ a.place?, q.line ≤ a.line :=
  ⟨(answers_beyond (beyond_ofSource source) calls).2, answers_line (beyond_ofSource source) calls⟩

end Lexer

end JamTokens
