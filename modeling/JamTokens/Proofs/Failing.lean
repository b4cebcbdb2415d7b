import JamTokens.Proofs.EndOfInput
import JamTokens.Proofs.Interning

/-!
# Requests that fail

A request fails on many ways: the input fails in a gap, in a lexeme, in a
lookahead or while a line is skipped, a literal is too large, a character
starts no token, or it lacks its equals sign.  By then parts of the lexer have
moved on, but none that a client can see.  The position of the latest token and
the symbols are those from before, and no token is kept that has been looked at,
so the next call has to make one.

A lexeme that has been handed back may be kept.  That happens behind an unpaired
character and on no other way, so never behind a flush.
-/

set_option autoImplicit false

namespace JamTokens

def LexError.isUnpaired : LexError → Bool
  | illegalOperatorSequence .. => true
  | _ => false

def Response.error? : Response → Option LexError
  | returned (.error e) => some e
  | stepped (some (.error e)) => some e
  | _ => none

theorem Request.error?_respond (r : Request) (result : Except LexError (Option Token))
    (e : LexError) : (r.respond result).error? = some e ↔ result = .error e := by
  cases r with
  | call c => cases result <;> simp [respond, Response.error?]
  | next => rcases result with e' | (_ | token) <;> simp [respond, Response.error?]

namespace Lexer

/-- What a client can see has not changed, and no token is left that has been looked at. -/
structure Untraced (l l' : Lexer) : Prop where
  position : l'.position = l.position
  symbols : l'.symbols = l.symbols
  peeked : l'.peeked = none

theorem Untraced.trans {l l' l'' : Lexer} (h : l.Untraced l') (h' : l'.Untraced l'') :
    l.Untraced l'' where
  position := h'.position.trans h.position
  symbols := h'.symbols.trans h.symbols
  peeked := h'.peeked

/-! ## What is handed back behind an error -/

/-- Behind an error a lexeme has been handed back exactly if the error is an unpaired character. -/
def HandsBack {α : Type} (outcome : Except LexError α × Lexer) : Prop :=
  ∀ e, outcome.1 = .error e → outcome.2.scanner.returned.isSome = e.isUnpaired

theorem handsBack_ok {α : Type} (value : α) (l : Lexer) : HandsBack (.ok value, l) := by
  intro e failed
  cases failed

theorem handsBack_error {α : Type} {e : LexError} {l : Lexer}
    (h : l.scanner.returned.isSome = e.isUnpaired) : HandsBack (α := α) (.error e, l) := by
  intro e' failed
  cases failed
  exact h

theorem handsBack_free {α : Type} {e : LexError} {l : Lexer} (free : l.scanner.returned = none)
    (other : e.isUnpaired = false) : HandsBack (α := α) (.error e, l) := by
  apply handsBack_error
  rw [free, other]
  rfl

theorem isUnpaired_unpaired (c : Char) (follower : Lexeme) (start : Position) :
    (unpaired c follower start).isUnpaired = true := by
  cases follower <;> rfl

theorem pair_handsBack (l : Lexer) (c : Char) (pairing : Pairing) (start : Position) :
    HandsBack (l.pair c pairing start) := by
  unfold pair
  rcases called : l.scanner.next with ⟨f | follower, s⟩
  · exact handsBack_free (Scanner.returned_of_next called) rfl
  · dsimp only
    split
    · apply handsBack_ok
    · cases pairing.single with
      | some token => apply handsBack_ok
      | none =>
          apply handsBack_error
          simp [Scanner.handBack, isUnpaired_unpaired]

theorem ofChar_handsBack {l : Lexer} (free : l.scanner.returned = none) (c : Char)
    (start : Position) : HandsBack (l.ofChar c start) := by
  unfold ofChar
  cases Token.ofChar? c with
  | some token => apply handsBack_ok
  | none =>
      cases Pairing.ofChar? c with
      | some pairing => apply pair_handsBack
      | none => exact handsBack_free free rfl

theorem ofLexeme_handsBack {l : Lexer} (free : l.scanner.returned = none) (lexeme : Lexeme)
    (start : Position) : HandsBack (l.ofLexeme lexeme start) := by
  cases lexeme with
  | endOfInput => apply handsBack_ok
  | word text => apply handsBack_ok
  | number text =>
      unfold ofLexeme
      dsimp only
      cases Literal.value? text.toList with
      | some value => apply handsBack_ok
      | none => exact handsBack_free free rfl
  | char c =>
      have back := ofChar_handsBack free c start
      unfold ofLexeme
      dsimp only
      rcases made : l.ofChar c start with ⟨e | token, l'⟩
      · rw [made] at back
        exact handsBack_error (back e rfl)
      · apply handsBack_ok

theorem assemble_handsBack (l : Lexer) : HandsBack l.assemble := by
  unfold assemble
  rcases called : l.scanner.next with ⟨f | lexeme, s⟩
  · exact handsBack_free (Scanner.returned_of_next called) rfl
  · have back := ofLexeme_handsBack (l := { l with scanner := s })
      (Scanner.returned_of_next called) lexeme s.start
    dsimp only
    rcases made : ofLexeme { l with scanner := s } lexeme s.start with ⟨e | token, l'⟩
    · rw [made] at back
      exact handsBack_error (back e rfl)
    · apply handsBack_ok

/-! ## Calls that fail -/

variable {l : Lexer} {c : Call} {e : LexError}

theorem fresh_of_failed (pulls : c ≠ .flush) (failed : (l.call c).1 = .error e) :
    l.peeked = none := by
  cases looked : l.peeked with
  | none => rfl
  | some next =>
      cases c with
      | flush => exact absurd rfl pulls
      | read => simp [call, read, looked] at failed
      | peek => simp [call, peek, looked] at failed

theorem assemble_of_failed (pulls : c ≠ .flush) (failed : (l.call c).1 = .error e) :
    l.assemble = (.error e, (l.call c).2) := by
  have fresh := fresh_of_failed pulls failed
  cases c with
  | flush => exact absurd rfl pulls
  | read =>
      simp only [call, read, fresh] at failed ⊢
      rcases made : l.assemble with ⟨e' | (_ | next), l'⟩
      · rw [made] at failed
        cases failed
        rfl
      · simp [made] at failed
      · simp [made] at failed
  | peek =>
      simp only [call, peek, fresh] at failed ⊢
      rcases made : l.assemble with ⟨e' | next, l'⟩
      · rw [made] at failed
        cases failed
        rfl
      · simp [made] at failed

theorem peeked_of_failed (failed : (l.call c).1 = .error e) : (l.call c).2.peeked = none := by
  by_cases drops : c = .flush
  · subst drops
    exact l.flush_peeked
  · have kept := l.assemble_work.1
    rw [assemble_of_failed drops failed] at kept
    exact kept.trans (fresh_of_failed drops failed)

/-- A call that makes a token of a word does not fail, and no other call binds anything. -/
theorem symbols_of_failed (failed : (l.call c).1 = .error e) :
    (l.call c).2.symbols = l.symbols := by
  cases word : l.wordMade c with
  | none => exact symbols_of_wordMade word
  | some text =>
      obtain ⟨token, returned, -⟩ := call_of_wordMade word
      rw [failed] at returned
      cases returned

theorem position_of_failed (settled : l.scanner.Settled) (failed : (l.call c).1 = .error e) :
    (l.call c).2.position = l.position := by
  cases c with
  | flush =>
      simp only [call, flush]
      rcases l.scanner.flush with ⟨f | _, s⟩ <;> rfl
  | peek =>
      have fresh := fresh_of_failed (by decide) failed
      exact (l.peek_fresh settled fresh).2.2.1
  | read =>
      have fresh := fresh_of_failed (by decide) failed
      obtain ⟨result, -, position, -⟩ := l.read_fresh settled fresh
      have returned : l.read.1 = .error e := failed
      rw [result] at returned
      cases made : l.pending.assemble.1 with
      | error e' =>
          rw [made] at position
          exact position
      | ok next =>
          rw [made] at returned
          cases returned

theorem untraced_of_failed (settled : l.scanner.Settled) (failed : (l.call c).1 = .error e) :
    l.Untraced (l.call c).2 :=
  ⟨position_of_failed settled failed, symbols_of_failed failed, peeked_of_failed failed⟩

theorem returned_of_failed (failed : (l.call c).1 = .error e) :
    (l.call c).2.scanner.returned.isSome = e.isUnpaired := by
  by_cases drops : c = .flush
  · subst drops
    have input : e.isUnpaired = false := by
      simp only [call, flush] at failed
      cases flushed : l.scanner.flush with
      | mk result s =>
          rw [flushed] at failed
          cases result with
          | ok _ => cases failed
          | error f =>
              cases failed
              rfl
    rw [input]
    exact congrArg Option.isSome l.flush_returned
  · have back := l.assemble_handsBack
    rw [assemble_of_failed drops failed] at back
    exact back e rfl

/-! ## Requests that fail -/

/-- Any number of requests that all fail leave as little behind as one of them. -/
theorem untraced_of_all_failed (settled : l.scanner.Settled) (fresh : l.peeked = none)
    (requests : List Request)
    (fail : ∀ response ∈ l.responses requests, response.error?.isSome = true) :
    l.Untraced (l.afterRequests requests) := by
  induction requests generalizing l with
  | nil => exact ⟨rfl, rfl, fresh⟩
  | cons r requests ih =>
      rw [responses, List.forall_mem_cons, request_eq] at fail
      obtain ⟨first, later⟩ := fail
      obtain ⟨e, failed⟩ := Option.isSome_iff_exists.mp first
      have untraced := untraced_of_failed settled ((r.error?_respond _ e).mp failed)
      have settled' := settled_call settled r.toCall
      rw [afterRequests, request_eq]
      exact untraced.trans (ih settled' untraced.peeked later)

structure LeavesNoTrace (l l' : Lexer) (r : Request) (e : LexError) : Prop where
  untraced : l.Untraced l'
  /-- The next read or peek makes its token itself. -/
  assembles : ∀ c ≠ .flush, (l'.call c).1 = l'.assemble.1.map (·.map (·.1))
  returned : l'.scanner.returned.isSome = e.isUnpaired
  flushed : r = .call .flush → l'.scanner.returned = none
  /-- So it stays as long as requests fail. -/
  later : ∀ requests,
    (∀ response ∈ l'.responses requests, response.error?.isSome = true) →
      l.Untraced (l'.afterRequests requests)

/-- Whatever has gone before, a request that fails leaves the position of the latest token and the
whole symbol table as they were, and no token that has been looked at.  A lexeme is left handed back
behind an unpaired character only, so none is behind a flush. -/
theorem failing_request_leaves_no_trace (source : Source) (requests : List Request) (r : Request)
    (e : LexError)
    (failed : (((ofSource source).afterRequests requests).request r).1.error? = some e) :
    LeavesNoTrace ((ofSource source).afterRequests requests)
      (((ofSource source).afterRequests requests).request r).2 r e := by
  have start : (ofSource source).scanner.Settled := Scanner.settled_ofFeed source.feed
  have settled := settled_afterRequests start requests
  generalize (ofSource source).afterRequests requests = l at failed settled ⊢
  rw [request_eq] at failed ⊢
  have failed' := (r.error?_respond _ e).mp failed
  have untraced := untraced_of_failed settled failed'
  refine ⟨untraced, ?_, returned_of_failed failed', ?_, ?_⟩
  · intro c pulls
    exact (call_assembles untraced.peeked pulls).1
  · rintro rfl
    exact l.flush_returned
  · intro more fail
    exact untraced.trans
      (untraced_of_all_failed (settled_call settled r.toCall) untraced.peeked more fail)

/-- The lookahead of the bang has read a word, which is handed back and not bound. -/
theorem failing_request_leaves_no_trace_unpaired :
    let l := (ofSource (.ofText ['a', ' ', '!', 'b'])).afterRequests [.next]
    (l.request (.call .peek)).1.error? = some (.illegalOperatorSequence "!b" ⟨1, 3⟩) ∧
      LeavesNoTrace l (l.request (.call .peek)).2 (.call .peek)
        (.illegalOperatorSequence "!b" ⟨1, 3⟩) := by
  intro l
  have failed : (l.request (.call .peek)).1.error? =
      some (.illegalOperatorSequence "!b" ⟨1, 3⟩) := by
    decide +kernel
  exact ⟨failed, failing_request_leaves_no_trace _ _ _ _ failed⟩

end Lexer

end JamTokens
