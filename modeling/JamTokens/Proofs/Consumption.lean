import JamTokens.Proofs.CheckedRuns
import JamTokens.Proofs.LexemeTexts

/-!
# What calls use up

What is unread by a lexer is a stream: the characters of a lexeme that has been
handed back, and behind them what is left of the stream of the source.  A call
uses up some characters at the head of that stream, and then one failure if it
returns a failure of the input.

A token that has been looked at is not used up before it is read.  So a read
that returns a token or an error with a position uses up characters of its own,
and reading on, with or without flushes, ends after as many reads as there are
characters and failures in the stream, and one more.
-/

set_option autoImplicit false

namespace JamTokens

/-- A stream that begins with some characters, then a failure if there is one. -/
def CharStream.spent (own : List Char) (failure : Option Failure) (rest : CharStream) :
    CharStream :=
  own.map .ok ++ (failure.toList.map .error ++ rest)

namespace CharStream

theorem spent_append (own more : List Char) (failure : Option Failure) (rest : CharStream) :
    spent (own ++ more) failure rest = spent own none (spent more failure rest) := by
  simp [spent]

theorem length_spent (own : List Char) (failure : Option Failure) (rest : CharStream) :
    (spent own failure rest).length = own.length + failure.toList.length + rest.length := by
  simp [spent, Nat.add_assoc]

end CharStream

open CharStream (spent spent_append length_spent)

/-! ## Runs along a feed -/

namespace Feed

def Run.Spends (run : Run) (feed : Feed) : Prop :=
  feed.stream = spent run.taken run.failure run.rest.stream

theorem Run.Spends.cons {run : Run} {feed : Feed} (h : run.Spends feed) (c : Char) :
    (run.cons c).Spends (.char c :: feed) :=
  congrArg (Except.ok c :: ·) h

theorem takeGap_spends (inComment : Bool) (feed : Feed) : (feed.takeGap inComment).Spends feed := by
  fun_induction takeGap inComment feed with
  | case1 c rest ih => exact ih.cons c
  | case2 c rest blank ih => exact ih.cons c
  | case3 c rest notBlank opens ih => exact ih.cons c
  | case4 c rest notBlank notOpen => rfl
  | case5 inComment rest ih => exact ih
  | case6 inComment f rest => rfl
  | case7 inComment rest => rfl
  | case8 inComment => rfl

theorem takeSteps_spends {σ : Type} (step : σ → Char → Option σ) (state : σ) (feed : Feed) :
    (feed.takeSteps step state).Spends feed := by
  fun_induction takeSteps step state feed with
  | case1 state c rest state' accept ih => exact ih.cons c
  | case2 state c rest refuse => rfl
  | case3 state rest ih => exact ih
  | case4 state f rest => rfl
  | case5 state rest => rfl
  | case6 state => rfl

theorem takeLine_spends (feed : Feed) : feed.takeLine.Spends feed := by
  fun_induction takeLine feed with
  | case1 rest => rfl
  | case2 c rest other ih => exact ih.cons c
  | case3 rest ih => exact ih
  | case4 f rest => rfl
  | case5 rest => rfl
  | case6 => rfl

end Feed

/-! ## Scanners -/

namespace Scanner

def unread (s : Scanner) : CharStream :=
  (s.returned.toList.flatMap fun back => back.1.characters).map .ok ++ s.cursor.feed.stream

theorem unread_free (cursor : Cursor) (start : Position) :
    unread ⟨cursor, none, start⟩ = cursor.feed.stream := rfl

theorem unread_handBack {s : Scanner} (h : s.returned = none) (lexeme : Lexeme) :
    (s.handBack lexeme).unread = spent lexeme.characters none s.unread := by
  simp [unread, handBack, h, spent]

/-- What is read is a gap, and behind it a failure or the characters of the lexeme. -/
def Spends (s : Scanner) (outcome : Except Failure Lexeme × Scanner) : Prop :=
  ∃ gap, match outcome with
    | (.error f, s') => s.unread = spent gap (some f) s'.unread
    | (.ok lexeme, s') => s.unread = spent (gap ++ lexeme.characters) none s'.unread

theorem finish_spends (cursor : Cursor) (start : Position) (make : String → Lexeme)
    (own : ∀ text, (make text).characters = text.toList) {run : Feed.Run}
    (spends : run.Spends cursor.feed) :
    Spends ⟨cursor, none, start⟩ (finish ⟨cursor, none, start⟩ make run) := by
  unfold finish
  cases failed : run.failure with
  | some f =>
      refine ⟨run.taken, ?_⟩
      rw [unread_free, spends, failed]
      rfl
  | none =>
      refine ⟨[], ?_⟩
      rw [unread_free, spends, failed]
      dsimp only
      rw [List.nil_append, own, String.toList_ofList]
      rfl

theorem scan_spends (cursor : Cursor) (start : Position) :
    Spends ⟨cursor, none, start⟩ (scan ⟨cursor, none, start⟩) := by
  have word := finish_spends cursor cursor.position .word (fun _ => rfl)
    (Feed.takeSteps_spends Lexeme.wordStep () cursor.feed)
  have number := finish_spends cursor cursor.position .number (fun _ => rfl)
    (Feed.takeSteps_spends Lexeme.numberStep false cursor.feed)
  unfold scan
  dsimp only
  split
  · rename_i c rest atChar
    split
    · exact word
    · split
      · exact number
      · refine ⟨[], ?_⟩
        rw [unread_free, atChar]
        rfl
  · exact ⟨[], rfl⟩

theorem next_spends (s : Scanner) : s.Spends s.next := by
  obtain ⟨cursor, _ | ⟨lexeme, back⟩, start⟩ := s
  · have gap : cursor.feed.stream = _ := Feed.takeGap_spends false cursor.feed
    cases failed : (cursor.feed.takeGap false).failure with
    | some f =>
        rw [next_of_failed_gap rfl failed]
        refine ⟨(cursor.feed.takeGap false).taken, ?_⟩
        rw [unread_free, gap, failed]
        rfl
    | none =>
        obtain ⟨more, spends⟩ := scan_spends (cursor.pass (cursor.feed.takeGap false)) start
        rw [next_of_gap rfl failed]
        refine ⟨(cursor.feed.takeGap false).taken ++ more, ?_⟩
        rw [unread_free, gap, failed]
        dsimp only
        split
        · rename_i f s' found
          rw [found] at spends
          rw [spent_append]
          exact congrArg _ spends
        · rename_i lexeme s' found
          rw [found] at spends
          rw [List.append_assoc, spent_append]
          exact congrArg _ spends
  · refine ⟨[], ?_⟩
    simp [next, unread, spent]

theorem flush_spends (s : Scanner) :
    ∃ own, s.unread = spent own s.cursor.feed.takeLine.failure s.flush.2.unread := by
  have line : s.cursor.feed.stream = _ := Feed.takeLine_spends s.cursor.feed
  refine ⟨(s.returned.toList.flatMap fun back => back.1.characters) ++
    s.cursor.feed.takeLine.taken, ?_⟩
  rw [spent_append, flush_eq, unread_free, unread, line]
  rfl

end Scanner

/-! ## Lexers -/

namespace Lexer

def unread (l : Lexer) : CharStream := l.scanner.unread

def Spends {α : Type} (l : Lexer) (own : List Char) (outcome : Except LexError α × Lexer) : Prop :=
  l.unread = spent own (LexError.inputFailure? outcome.1) outcome.2.unread

theorem pair_spends (l : Lexer) (c : Char) (pairing : Pairing) (start : Position) :
    ∃ own, l.Spends own (l.pair c pairing start) := by
  obtain ⟨gap, spends⟩ := l.scanner.next_spends
  unfold pair
  rcases called : l.scanner.next with ⟨f | follower, s⟩ <;> rw [called] at spends
  · exact ⟨gap, spends⟩
  · dsimp only at spends ⊢
    split
    · exact ⟨_, spends⟩
    · have back : l.unread = spent gap none (s.handBack follower).unread := by
        rw [Scanner.unread_handBack (Scanner.returned_of_next called), ← spent_append]
        exact spends
      refine ⟨gap, ?_⟩
      cases pairing.single with
      | some token => exact back
      | none => cases follower <;> exact back

theorem ofChar_spends (l : Lexer) (c : Char) (start : Position) :
    ∃ own, l.Spends own (l.ofChar c start) := by
  unfold ofChar
  split
  · exact ⟨[], rfl⟩
  · split
    · exact l.pair_spends c _ start
    · exact ⟨[], rfl⟩

theorem ofLexeme_spends (l : Lexer) (lexeme : Lexeme) (start : Position) :
    ∃ own, l.Spends own (l.ofLexeme lexeme start) := by
  cases lexeme with
  | endOfInput => exact ⟨[], rfl⟩
  | word text => exact ⟨[], rfl⟩
  | number text =>
      unfold ofLexeme
      dsimp only
      split
      · exact ⟨[], rfl⟩
      · exact ⟨[], rfl⟩
  | char c =>
      obtain ⟨own, spends⟩ := l.ofChar_spends c start
      refine ⟨own, ?_⟩
      unfold ofLexeme
      dsimp only
      rcases made : l.ofChar c start with ⟨e | token, l'⟩ <;> rw [made] at spends
      · exact spends
      · exact spends

theorem assemble_spends {l : Lexer} (orderly : l.scanner.Orderly) :
    ∃ own, l.Spends own l.assemble ∧
      (l.assemble.1 ≠ .ok none → LexError.inputFailure? l.assemble.1 = none → own ≠ []) := by
  obtain ⟨gap, spends⟩ := l.scanner.next_spends
  unfold assemble
  rcases called : l.scanner.next with ⟨f | lexeme, s⟩ <;> rw [called] at spends
  · exact ⟨gap, spends, fun _ noFailure => nomatch noFailure⟩
  · by_cases atEnd : lexeme = .endOfInput
    · subst atEnd
      exact ⟨_, spends, fun more => absurd rfl more⟩
    · have own := (Scanner.next_proper orderly called).characters_ne_nil atEnd
      obtain ⟨more, behind⟩ := ofLexeme_spends { l with scanner := s } lexeme s.start
      have both : l.unread = _ := spends.trans (congrArg (spent _ none) behind)
      rw [← spent_append] at both
      refine ⟨gap ++ lexeme.characters ++ more, ?_, fun _ _ => by simp [own]⟩
      dsimp only
      rcases made : ofLexeme { l with scanner := s } lexeme s.start with ⟨e | token, l'⟩ <;>
        rw [made] at both
      · exact both
      · exact both

theorem flush_spends (l : Lexer) : ∃ own, l.Spends own l.flush := by
  obtain ⟨own, spends⟩ := l.scanner.flush_spends
  refine ⟨own, ?_⟩
  unfold flush
  rw [Scanner.flush_eq] at spends ⊢
  cases failed : l.scanner.cursor.feed.takeLine.failure with
  | some f =>
      rw [failed] at spends
      exact spends
  | none =>
      rw [failed] at spends
      exact spends

theorem call_spends {l : Lexer} (orderly : l.scanner.Orderly) (fresh : l.peeked = none) (c : Call) :
    ∃ own, l.Spends own (l.call c) ∧ (c ≠ .flush → (l.call c).1 ≠ .ok none →
      LexError.inputFailure? (l.call c).1 = none → own ≠ []) := by
  obtain ⟨own, spends, proper⟩ := assemble_spends orderly
  cases c with
  | read =>
      refine ⟨own, ?_⟩
      unfold call read
      rw [fresh]
      dsimp only
      rcases made : l.assemble with ⟨e | (_ | next), l'⟩ <;> rw [made] at spends proper
      · exact ⟨spends, fun _ _ => proper nofun⟩
      · exact ⟨spends, fun _ more => absurd rfl more⟩
      · exact ⟨spends, fun _ _ => proper nofun⟩
  | peek =>
      refine ⟨own, ?_⟩
      unfold call peek
      rw [fresh]
      dsimp only
      rcases made : l.assemble with ⟨e | (_ | next), l'⟩ <;> rw [made] at spends proper
      · exact ⟨spends, fun _ _ => proper nofun⟩
      · exact ⟨spends, fun _ more => absurd rfl more⟩
      · exact ⟨spends, fun _ _ => proper nofun⟩
  | flush =>
      obtain ⟨own, spends⟩ := l.flush_spends
      refine ⟨own, ?_, fun drops => absurd rfl drops⟩
      unfold call
      rcases flushed : l.flush with ⟨e | _, l'⟩ <;> rw [flushed] at spends <;> exact spends

end Lexer

/-! ## Sessions -/

/-- A lexer, with what no read has used up.  That includes a token that has been looked at. -/
structure Ledger where
  lexer : Lexer
  unused : CharStream

namespace Ledger

def ofSource (source : Source) : Ledger := ⟨.ofSource source, source.stream⟩

def call (a : Ledger) (c : Call) : Ledger :=
  let l := (a.lexer.call c).2
  ⟨l, if l.peeked.isSome then a.unused else l.unread⟩

def after (a : Ledger) : List Call → Ledger
  | [] => a
  | c :: calls => (a.call c).after calls

theorem after_lexer (a : Ledger) (calls : List Call) :
    (a.after calls).lexer = a.lexer.afterCalls calls := by
  induction calls generalizing a with
  | nil => rfl
  | cons c calls ih => exact ih (a.call c)

/-- What is unused is what is unread, behind the characters of a token that has been looked at. -/
structure Balanced (a : Ledger) : Prop where
  orderly : a.lexer.scanner.Orderly
  unused : match a.lexer.peeked with
    | none => a.unused = a.lexer.unread
    | some _ => ∃ own, own ≠ [] ∧ a.unused = spent own none a.lexer.unread

theorem balanced_of_fresh {l : Lexer} (orderly : l.scanner.Orderly) (fresh : l.peeked = none) :
    Balanced ⟨l, l.unread⟩ := by
  refine ⟨orderly, ?_⟩
  rw [fresh]

theorem balanced_ofSource (source : Source) : (ofSource source).Balanced :=
  ⟨Scanner.orderly_of_returned_none rfl, source.stream_feed.symm⟩

/-- The call uses up characters and the failure that it returns.  A read that returns a token or an
error with a position has characters of its own. -/
def Spends (a : Ledger) (c : Call) : Prop :=
  ∃ own, a.unused = spent own (LexError.inputFailure? (a.lexer.call c).1) (a.call c).unused ∧
    (c = .read → (a.lexer.call c).1 ≠ .ok none →
      LexError.inputFailure? (a.lexer.call c).1 = none → own ≠ [])

variable {a : Ledger}

theorem call_of_gone {c : Call} (gone : (a.lexer.call c).2.peeked = none) :
    a.call c = ⟨(a.lexer.call c).2, (a.lexer.call c).2.unread⟩ := by
  simp [call, gone]

theorem call_of_kept {c : Call} {next : Token × Position}
    (kept : (a.lexer.call c).2.peeked = some next) :
    a.call c = ⟨(a.lexer.call c).2, a.unused⟩ := by
  simp [call, kept]

theorem balanced_of_gone (h : a.Balanced) {c : Call} (gone : (a.lexer.call c).2.peeked = none) :
    (a.call c).Balanced := by
  rw [call_of_gone gone]
  exact balanced_of_fresh (Lexer.call_orderly h.orderly c) gone

/-- Where a token has been looked at, the calls do not differ in what is behind it. -/
theorem call_spends_peeked (h : a.Balanced) {next : Token × Position}
    (looked : a.lexer.peeked = some next) (c : Call) : a.Spends c ∧ (a.call c).Balanced := by
  have balance := h.unused
  rw [looked] at balance
  obtain ⟨own, proper, unused⟩ := balance
  cases c with
  | read =>
      have called : a.lexer.call .read =
          (.ok (some next.1), { a.lexer with peeked := none, position := next.2 }) := by
        simp [Lexer.call, Lexer.read, looked]
      have gone : (a.lexer.call .read).2.peeked = none := by rw [called]
      refine ⟨⟨own, ?_, fun _ _ _ => proper⟩, balanced_of_gone h gone⟩
      rw [call_of_gone gone, called]
      exact unused
  | peek =>
      have called : a.lexer.call .peek = (.ok (some next.1), a.lexer) := by
        simp [Lexer.call, Lexer.peek, looked]
      have kept : (a.lexer.call .peek).2.peeked = some next := by
        rw [called]
        exact looked
      have same : a.call .peek = a := by rw [call_of_kept kept, called]
      refine ⟨⟨[], ?_, fun reads => absurd reads (by decide)⟩, same.symm ▸ h⟩
      rw [same, called]
      rfl
  | flush =>
      obtain ⟨more, behind⟩ := a.lexer.flush_spends
      have gone : (a.lexer.call .flush).2.peeked = none := a.lexer.flush_peeked
      refine ⟨⟨own ++ more, ?_, fun reads => absurd reads (by decide)⟩, balanced_of_gone h gone⟩
      rw [call_of_gone gone, unused, behind, ← spent_append]
      unfold Lexer.call
      rcases a.lexer.flush with ⟨e | _, l⟩ <;> rfl

theorem call_spends (h : a.Balanced) (c : Call) : a.Spends c ∧ (a.call c).Balanced := by
  cases looked : a.lexer.peeked with
  | some next => exact call_spends_peeked h looked c
  | none =>
      obtain ⟨own, spends, proper⟩ := Lexer.call_spends h.orderly looked c
      have unused := h.unused
      rw [looked] at unused
      cases behind : (a.lexer.call c).2.peeked with
      | none =>
          refine ⟨⟨own, ?_, ?_⟩, balanced_of_gone h behind⟩
          · rw [call_of_gone behind]
            exact unused.trans spends
          · rintro rfl
            exact proper nofun
      | some next =>
          -- only a peek leaves a token behind, and it leaves the characters of the token unused
          obtain ⟨rfl, returned⟩ := Lexer.call_keeps looked behind
          refine ⟨⟨[], ?_, nofun⟩, ?_⟩
          · rw [call_of_kept behind, returned]
            rfl
          · rw [call_of_kept behind]
            refine ⟨Lexer.call_orderly h.orderly .peek, ?_⟩
            rw [returned] at proper
            rw [Lexer.Spends, returned] at spends
            dsimp only
            rw [behind]
            exact ⟨own, proper nofun nofun rfl, unused.trans spends⟩

theorem call_length_le (h : a.Balanced) (c : Call) : (a.call c).unused.length ≤ a.unused.length := by
  obtain ⟨own, unused, -⟩ := (call_spends h c).1
  rw [unused, length_spent]
  exact Nat.le_add_left _ _

theorem read_length_lt (h : a.Balanced) (more : (a.lexer.call .read).1 ≠ .ok none) :
    (a.call .read).unused.length < a.unused.length := by
  obtain ⟨own, unused, proper⟩ := (call_spends h .read).1
  rw [unused, length_spent]
  cases failed : LexError.inputFailure? (a.lexer.call .read).1 with
  | some f =>
      simp only [Option.toList_some, List.length_singleton]
      omega
  | none =>
      have positive := List.length_pos_iff.mpr (proper rfl more failed)
      omega

theorem after_balanced (h : a.Balanced) (calls : List Call) : (a.after calls).Balanced := by
  induction calls generalizing a with
  | nil => exact h
  | cons c calls ih => exact ih (call_spends h c).2

theorem after_length_le (h : a.Balanced) (calls : List Call) :
    (a.after calls).unused.length ≤ a.unused.length := by
  induction calls generalizing a with
  | nil => exact Nat.le_refl _
  | cons c calls ih => exact Nat.le_trans (ih (call_spends h c).2) (call_length_le h c)

end Ledger

end JamTokens
