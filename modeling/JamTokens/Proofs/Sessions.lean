import JamTokens.Proofs.Lowering
import JamTokens.Proofs.MovingOn

/-!
# Sessions with a lexer

A session is a sequence of calls: tokens are read and looked at, and lines are
flushed, in any order.  What a session returns is compared for two lexers of
which one is below the other, and at the end of the input, where every call
returns the same and nothing changes any more.
-/

set_option autoImplicit false

namespace JamTokens

inductive Call
  | read | peek | flush
  deriving DecidableEq, Repr

/-- What a call returns and what can be seen behind it. -/
structure Answer where
  /-- The token or the error; a flush returns no token. -/
  result : Except LexError (Option Token)
  /-- Where the token starts that has been read. -/
  start : Option Position
  line : Nat
  symbols : Symbols

def Answer.lower (lines : Nat) (a : Answer) : Answer :=
  ⟨a.result.mapError (LexError.lower lines), a.start.map (Position.lower lines), a.line + lines,
    a.symbols⟩

namespace Lexer

def call (l : Lexer) : Call → Except LexError (Option Token) × Lexer
  | .read => l.read
  | .peek => l.peek
  | .flush => (l.flush.1.map fun _ => none, l.flush.2)

/-- Where the token starts that a call has read; only reading a token tells it. -/
def startRead (l : Lexer) (c : Call) : Option Position :=
  match c, (l.call c).1 with
  | .read, .ok (some _) => some (l.call c).2.position
  | _, _ => none

def answer (l : Lexer) (c : Call) : Answer :=
  ⟨(l.call c).1, l.startRead c, (l.call c).2.line, (l.call c).2.symbols⟩

def answers (l : Lexer) : List Call → List Answer
  | [] => []
  | c :: calls => l.answer c :: (l.call c).2.answers calls

def afterCalls (l : Lexer) : List Call → Lexer
  | [] => l
  | c :: calls => (l.call c).2.afterCalls calls

/-! ## Moving on -/

theorem call_moves (l : Lexer) (c : Call) : l.cursor.MovesTo (l.call c).2.cursor := by
  cases c with
  | read => exact l.read_moves
  | peek => exact l.peek_moves
  | flush => exact l.flush_moves

theorem afterCalls_moves (l : Lexer) (calls : List Call) :
    l.cursor.MovesTo (l.afterCalls calls).cursor := by
  induction calls generalizing l with
  | nil => exact Cursor.movesTo_refl _
  | cons c calls ih => exact (l.call_moves c).trans (ih (l.call c).2)

/-! ## Further down -/

theorem below_line {lines : Nat} {upper lower : Lexer} (h : Below lines upper lower) :
    lower.line = upper.line + lines := by
  unfold Lexer.line Scanner.line
  rw [h.scanner.position]
  rfl

theorem below_call {lines : Nat} {upper lower : Lexer} (h : Below lines upper lower) (c : Call) :
    RecountedBy (.lowering lines) id (upper.call c) (lower.call c) := by
  cases c with
  | read => exact (recounted_read h).1
  | peek => exact recounted_peek h
  | flush =>
      obtain ⟨result, lexer⟩ := below_flush h
      refine ⟨?_, lexer⟩
      simp only [call]
      rw [result]
      cases upper.flush.1 <;> rfl

theorem below_startRead {lines : Nat} {upper lower : Lexer} (h : Below lines upper lower)
    (c : Call) : lower.startRead c = (upper.startRead c).map (Position.lower lines) := by
  unfold startRead
  rw [(below_call h c).result]
  cases c with
  | read =>
      rcases returned : (upper.call .read).1 with e | (_ | token)
      · rfl
      · rfl
      · exact congrArg some ((recounted_read h).2 token returned)
  | peek => rcases (upper.call .peek).1 with e | (_ | token) <;> rfl
  | flush => rcases (upper.call .flush).1 with e | (_ | token) <;> rfl

theorem below_answer {lines : Nat} {upper lower : Lexer} (h : Below lines upper lower) (c : Call) :
    lower.answer c = (upper.answer c).lower lines := by
  obtain ⟨result, lexer⟩ := below_call h c
  unfold answer
  rw [result, below_startRead h, below_line lexer, lexer.symbols]
  rcases (upper.call c).1 with e | token <;> rfl

theorem below_answers {lines : Nat} {upper lower : Lexer} (h : Below lines upper lower)
    (calls : List Call) : lower.answers calls = (upper.answers calls).map (Answer.lower lines) := by
  induction calls generalizing upper lower with
  | nil => rfl
  | cons c calls ih =>
      rw [answers, answers, below_answer h, ih (below_call h c).lexer]
      rfl

theorem below_withSymbols {l : Lexer} {source : Source} {lines : Nat} (feed : l.cursor.feed = source.feed)
    (position : l.cursor.position = ⟨1 + lines, 1⟩) (returned : l.scanner.returned = none)
    (peeked : l.peeked = none) : Below lines (withSymbols source.feed l.symbols) l :=
  ⟨⟨feed, position, returned⟩, rfl, peeked⟩

/-! ## What a read and a peek make -/

theorem call_assembles {l : Lexer} (fresh : l.peeked = none) {c : Call} (pulls : c ≠ .flush) :
    (l.call c).1 = l.assemble.1.map (·.map (·.1)) ∧
      (l.call c).2.symbols = l.assemble.2.symbols ∧
      ∀ next, (l.call c).2.peeked = some next → l.assemble.1 = .ok (some next) := by
  obtain ⟨kept, -⟩ := l.assemble_work
  rw [fresh] at kept
  cases c with
  | flush => exact absurd rfl pulls
  | read =>
      simp only [call, read, fresh]
      rcases made : l.assemble with ⟨e | (_ | ⟨token, start⟩), l'⟩ <;> rw [made] at kept
      · exact ⟨rfl, rfl, fun next found => absurd (kept.symm.trans found) (by simp)⟩
      · exact ⟨rfl, rfl, fun next found => absurd (kept.symm.trans found) (by simp)⟩
      · exact ⟨rfl, rfl, fun next found => absurd (kept.symm.trans found) (by simp)⟩
  | peek =>
      simp only [call, peek, fresh]
      rcases made : l.assemble with ⟨e | token, l'⟩
      · rw [made] at kept
        exact ⟨rfl, rfl, fun next found => absurd (kept.symm.trans found) (by simp)⟩
      · exact ⟨rfl, rfl, fun next found => congrArg Except.ok found⟩

theorem read_peeked (l : Lexer) : l.read.2.peeked = none := by
  unfold read
  cases fresh : l.peeked with
  | some next => rfl
  | none =>
      have kept := l.assemble_work.1
      rw [fresh] at kept
      dsimp only
      rcases made : l.assemble with ⟨e | (_ | next), l'⟩ <;> rw [made] at kept <;> exact kept

theorem flush_peeked (l : Lexer) : l.flush.2.peeked = none := by
  unfold flush
  rcases l.scanner.flush with ⟨f | _, s⟩ <;> rfl

theorem flush_returned (l : Lexer) : l.flush.2.scanner.returned = none := by
  simp only [flush, Scanner.flush_eq]
  cases l.scanner.cursor.feed.takeLine.failure with
  | some f => rfl
  | none => rfl

/-- Only a peek leaves a token behind. -/
theorem call_keeps {l : Lexer} (fresh : l.peeked = none) {c : Call} {next : Token × Position}
    (kept : (l.call c).2.peeked = some next) : c = .peek ∧ (l.call c).1 = .ok (some next.1) := by
  by_cases drops : c = .flush
  · subst drops
    cases l.flush_peeked.symm.trans kept
  · obtain ⟨result, -, made⟩ := call_assembles fresh drops
    have returned : (l.call c).1 = .ok (some next.1) := by
      rw [result, made next kept]
      rfl
    refine ⟨?_, returned⟩
    cases c with
    | peek => rfl
    | flush => exact absurd rfl drops
    | read =>
        cases l.read_peeked.symm.trans kept

theorem assemble_of_next_end {l : Lexer} {s : Scanner}
    (atEnd : l.scanner.next = (.ok .endOfInput, s)) :
    l.assemble = (.ok none, { l with scanner := s }) := by
  simp only [assemble, atEnd, ofLexeme_endOfInput, Option.map_none]

theorem call_of_next_end {l : Lexer} {s : Scanner} (fresh : l.peeked = none)
    (atEnd : l.scanner.next = (.ok .endOfInput, s)) {c : Call} (pulls : c ≠ .flush) :
    l.call c = (.ok none, { l with scanner := s }) := by
  have nothing := assemble_of_next_end atEnd
  cases c with
  | flush => exact absurd rfl pulls
  | read => simp only [call, read, fresh, nothing]
  | peek => simp only [call, peek, fresh, nothing, Option.map_none]

theorem ofLexeme_ne_none (l : Lexer) (lexeme : Lexeme) (start : Position)
    (more : lexeme ≠ .endOfInput) : (l.ofLexeme lexeme start).1 ≠ .ok none := by
  cases lexeme with
  | endOfInput => exact absurd rfl more
  | word text => exact fun nothing => nomatch nothing
  | number text =>
      unfold ofLexeme
      dsimp only
      cases Literal.value? text.toList with
      | some value => exact fun nothing => nomatch nothing
      | none => exact fun nothing => nomatch nothing
  | char c =>
      unfold ofLexeme
      dsimp only
      rcases l.ofChar c start with ⟨e | token, l'⟩
      · exact fun nothing => nomatch nothing
      · exact fun nothing => nomatch nothing

theorem next_of_assemble_none {l : Lexer} (nothing : l.assemble.1 = .ok none) :
    l.scanner.next.1 = .ok .endOfInput := by
  unfold assemble at nothing
  rcases called : l.scanner.next with ⟨f | lexeme, s⟩
  · rw [called] at nothing
    cases nothing
  · by_cases atEnd : lexeme = .endOfInput
    · rw [atEnd]
    · have proper := ofLexeme_ne_none { l with scanner := s } lexeme s.start atEnd
      rw [called] at nothing
      dsimp only at nothing
      rcases made : ofLexeme { l with scanner := s } lexeme s.start with ⟨e | (_ | token), l'⟩
      · rw [made] at nothing
        cases nothing
      · rw [made] at proper
        exact absurd rfl proper
      · rw [made] at nothing
        cases nothing

theorem next_of_call_none {l : Lexer} (fresh : l.peeked = none) {c : Call} (pulls : c ≠ .flush)
    (nothing : (l.call c).1 = .ok none) : l.scanner.next.1 = .ok .endOfInput := by
  apply next_of_assemble_none
  rw [(call_assembles fresh pulls).1] at nothing
  rcases made : l.assemble.1 with e | (_ | next)
  · rw [made] at nothing
    cases nothing
  · rfl
  · rw [made] at nothing
    cases nothing

/-! ## At the end of the input -/

/-- The feed is used up, and nothing is kept of what was read from it. -/
structure AtEnd (l : Lexer) : Prop where
  feed : l.cursor.feed.Ended
  returned : ∀ lexeme start, l.scanner.returned = some (lexeme, start) → lexeme = .endOfInput
  peeked : l.peeked = none

/-- Nothing of the second lexer differs from the first, but for what was handed back. -/
structure Rests (l l' : Lexer) : Prop where
  atEnd : l'.AtEnd
  cursor : l'.cursor = l.cursor
  symbols : l'.symbols = l.symbols
  position : l'.position = l.position

theorem next_atEnd {l : Lexer} (h : l.AtEnd) :
    ∃ s : Scanner, l.scanner.next = (.ok .endOfInput, s) ∧ s.cursor = l.cursor ∧ s.returned = none := by
  cases found : l.scanner.returned with
  | some back =>
      obtain ⟨lexeme, start⟩ := back
      obtain rfl := h.returned lexeme start found
      exact ⟨{ l.scanner with returned := none, start := start }, by simp [Scanner.next, found], rfl, rfl⟩
  | none =>
      have gap : l.scanner.cursor.feed.takeGap false = ⟨[], none, l.scanner.cursor.feed⟩ :=
        Feed.takeGap_ended false h.feed
      have scanned := Scanner.scan_ended
        (s := { l.scanner with cursor := l.scanner.cursor.pass ⟨[], none, l.scanner.cursor.feed⟩ })
        h.feed
      rw [Scanner.next_of_gap found (congrArg Feed.Run.failure gap), gap, scanned]
      exact ⟨_, rfl, rfl, found⟩

theorem call_atEnd {l : Lexer} (h : l.AtEnd) (c : Call) :
    ∃ l', l.call c = (.ok none, l') ∧ l.Rests l' := by
  by_cases drops : c = .flush
  · subst drops
    have line : l.scanner.cursor.feed.takeLine = ⟨[], none, l.scanner.cursor.feed⟩ :=
      Feed.takeLine_ended h.feed
    refine ⟨{ l with scanner := ⟨l.cursor, none, l.scanner.start⟩, peeked := none }, ?_,
      ⟨h.feed, (fun _ _ found => nomatch found), rfl⟩, rfl, rfl, rfl⟩
    simp [call, flush, Scanner.flush_eq, line, Cursor.pass, Lexer.cursor]
    rfl
  · obtain ⟨s, called, cursor, returned⟩ := next_atEnd h
    refine ⟨{ l with scanner := s }, call_of_next_end h.peeked called drops, ⟨?_, ?_, h.peeked⟩,
      cursor, rfl, rfl⟩
    · rw [Lexer.cursor, cursor]
      exact h.feed
    · intro lexeme start found
      rw [returned] at found
      cases found

/-- Where the input has ended every call reports so, and nothing changes any more. -/
theorem answers_atEnd {l : Lexer} (h : l.AtEnd) (calls : List Call) :
    l.answers calls = calls.map fun _ => ⟨.ok none, none, l.line, l.symbols⟩ := by
  induction calls generalizing l with
  | nil => rfl
  | cons c calls ih =>
      obtain ⟨l', called, rests⟩ := call_atEnd h c
      have line : l'.line = l.line := congrArg (·.position.line) rests.cursor
      have first : l.answer c = ⟨.ok none, none, l.line, l.symbols⟩ := by
        unfold answer startRead
        rw [called]
        cases c <;> simp [line, rests.symbols]
      rw [answers, first, called, ih rests.atEnd, line, rests.symbols]
      rfl

end Lexer

end JamTokens
