import JamTokens.Proofs.Stopping

/-!
# Runs that end with a lexical error

A run that returns an error of its lexer has reported it, and has had the sink
pass on all that was printed.  So it returns no such error where the sink fails
at that.

One way out is an exception.  The input may fail while a run that recovers
skips the rest of a line: then the failure is returned, but neither reported nor
is anything passed on.
-/

set_option autoImplicit false

namespace JamTokens

/-- What a run has done about an error that it returns. -/
structure Printed.AccountsFor (p : Printed) (sink : Sink) (e : LexError) : Prop where
  reported : .reported e ∈ p.log
  flushed : p.sink.flushed = true
  /-- Nothing fails when the sink that the run began with is flushed. -/
  flushes : sink.flushFailure = none

/-- If the run returns an error of its lexer, it has done all about it. -/
def Printed.Accounts (p : Printed) (sink : Sink) : Prop :=
  ∀ e, p.result = .error (.lex e) → p.AccountsFor sink e

/-! ## Sinks -/

namespace Sink

theorem write_flushFailure (s : Sink) (bytes : ByteArray) :
    (s.write bytes).2.flushFailure = s.flushFailure := by
  unfold write
  cases s.room with
  | none => rfl
  | some n =>
      dsimp only
      split
      · rfl
      · rfl

theorem writeToken_keeps (s : Sink) (format : OutputFormat) (t : Token) (start : Position) :
    (s.writeToken format t start).2.flushFailure = s.flushFailure ∧
      ∀ e, (s.writeToken format t start).1 ≠ .error (.lex e) := by
  cases format with
  | plain =>
      have kept := s.write_flushFailure ((TokenRecord.ofToken t start).plain ++ "\n").toUTF8
      unfold writeToken
      dsimp only
      rcases written : s.write ((TokenRecord.ofToken t start).plain ++ "\n").toUTF8 with ⟨f | _, s'⟩ <;>
        rw [written] at kept
      · exact ⟨kept, fun e same => nomatch same⟩
      · exact ⟨kept, fun e same => nomatch same⟩
  | json =>
      have kept := s.write_flushFailure (TokenRecord.ofToken t start).json.toUTF8
      unfold writeToken
      dsimp only
      rcases written : s.write (TokenRecord.ofToken t start).json.toUTF8 with ⟨f | _, s'⟩ <;>
        rw [written] at kept
      · exact ⟨kept, fun e same => nomatch same⟩
      · -- the object has been taken, and the end of its line is a write of its own
        have kept' := (s'.write_flushFailure "\n".toUTF8).trans kept
        dsimp only
        rcases ended : s'.write "\n".toUTF8 with ⟨f | _, s''⟩ <;> rw [ended] at kept'
        · exact ⟨kept', fun e same => nomatch same⟩
        · exact ⟨kept', fun e same => nomatch same⟩

end Sink

namespace Lexer

theorem close_lex {l : Lexer} {sink : Sink} {result : Except RunError Unit} {log : List LogEntry}
    {e : LexError} (h : (l.close sink result log).result = .error (.lex e)) :
    result = .error (.lex e) ∧ sink.flushFailure = none ∧
      l.close sink result log = ⟨result, { sink with flushed := true }, l, log⟩ := by
  unfold close Sink.flush at h ⊢
  cases refuses : sink.flushFailure with
  | some f =>
      rw [refuses] at h
      cases h
  | none =>
      rw [refuses] at h
      exact ⟨h, rfl, rfl⟩

/-! ## Failures while a line is skipped -/

/-- The input fails while the rest of a line with an error is skipped, before it fails a read. -/
inductive FailsSkipping : Lexer → Prop
  | here {l l' l'' : Lexer} {e e' : LexError} (read : l.read = (.error e, l'))
      (lexical : e.isInput = false) (flushed : l'.flush = (.error e', l'')) : FailsSkipping l
  | error {l l' l'' : Lexer} {e : LexError} (read : l.read = (.error e, l'))
      (lexical : e.isInput = false) (flushed : l'.flush = (.ok (), l'')) (fails : FailsSkipping l'') :
      FailsSkipping l
  | token {l l' : Lexer} {t : Token} (read : l.read = (.ok (some t), l'))
      (fails : FailsSkipping l') : FailsSkipping l

/-- A run that meets such a failure returns it, if anything of the lexer, and has reported only
lexical errors. -/
theorem FailsSkipping.unreported {l : Lexer} (h : l.FailsSkipping) (format : OutputFormat)
    (sink : Sink) (tokens errors : Nat) {e : LexError}
    (returned : (l.printFrom format true sink tokens errors).result = .error (.lex e)) :
    e.isInput = true ∧
      ∀ e', .reported e' ∈ (l.printFrom format true sink tokens errors).log → e'.isInput = false := by
  induction h generalizing sink tokens errors with
  | here read lexical flushed =>
      obtain ⟨f, rfl⟩ := flush_error flushed
      rw [printFrom_of_failed_flush format sink tokens errors read lexical flushed] at returned ⊢
      cases returned
      refine ⟨rfl, ?_⟩
      intro e' member
      cases List.mem_singleton.mp member
      exact lexical
  | @error l l' l'' e₀ read lexical flushed fails ih =>
      rw [printFrom_of_error format sink tokens errors read lexical flushed] at returned ⊢
      obtain ⟨input, others⟩ := ih sink tokens (errors + 1) returned
      refine ⟨input, ?_⟩
      intro e' member
      rcases List.mem_append.mp member with first | later
      · have same : e' = e₀ := by simpa using first
        rw [same]
        exact lexical
      · exact others e' later
  | @token l l' t read fails ih =>
      obtain ⟨-, proper⟩ := sink.writeToken_keeps format t l'.position
      rcases written : sink.writeToken format t l'.position with ⟨refused | _, sink'⟩ <;>
        rw [written] at proper
      · rw [printFrom_of_refusal format true tokens errors read written] at returned
        exact absurd returned (proper e)
      · rw [printFrom_of_token format true tokens errors read written] at returned ⊢
        exact ih sink' (tokens + 1) errors returned

theorem printFrom_accounts (format : OutputFormat) (recover : Bool) (l : Lexer) (sink : Sink)
    (tokens errors : Nat) (safe : recover = true → ¬ l.FailsSkipping) :
    (l.printFrom format recover sink tokens errors).Accounts sink := by
  induction l using reads_induction generalizing sink tokens errors with
  | ended l l' called =>
      intro e returned
      rw [printFrom_of_end format recover sink tokens errors called] at returned
      obtain ⟨verdict, -⟩ := close_lex returned
      split at verdict
      · cases verdict
      · cases verdict
  | token l l' t called ih =>
      obtain ⟨kept, proper⟩ := sink.writeToken_keeps format t l'.position
      rcases written : sink.writeToken format t l'.position with ⟨refused | _, sink'⟩ <;>
        rw [written] at kept proper
      · intro e returned
        rw [printFrom_of_refusal format recover tokens errors called written] at returned
        exact absurd returned (proper e)
      · rw [printFrom_of_token format recover tokens errors called written]
        intro e returned
        obtain ⟨reported, flushed, flushes⟩ :=
          ih sink' (tokens + 1) errors (fun on fails => safe on (.token called fails)) e returned
        exact ⟨reported, flushed, kept.symm.trans flushes⟩
  | error l l' e called ih =>
      cases goesOn : recover && !e.isInput with
      | false =>
          rw [printFrom_of_stop format sink tokens errors called goesOn]
          intro e' returned
          obtain ⟨same, flushes, closed⟩ := close_lex returned
          cases same
          rw [closed]
          exact ⟨List.mem_singleton_self _, rfl, flushes⟩
      | true =>
          obtain ⟨rfl, lexical⟩ : recover = true ∧ e.isInput = false := by simpa using goesOn
          rcases flushed : l'.flush with ⟨e' | _, l''⟩
          · exact absurd (.here called lexical flushed) (safe rfl)
          · rw [flushed] at ih
            rw [printFrom_of_error format sink tokens errors called lexical flushed]
            intro e' returned
            obtain ⟨reported, passedOn, flushes⟩ := ih sink tokens (errors + 1)
              (fun _ fails => safe rfl (.error called lexical flushed fails)) e' returned
            exact ⟨List.mem_append_right _ reported, passedOn, flushes⟩

/-- A run has done all about the error that it returns, except exactly if it recovers from errors and
returns a failure of the input met while it skipped the rest of a line. -/
theorem print_accounts_iff (source : Source) (format : OutputFormat) (recover : Bool) (sink : Sink) :
    ((ofSource source).print format recover sink).Accounts sink ↔
      ¬ (recover = true ∧ (ofSource source).FailsSkipping ∧
        ∃ e, ((ofSource source).print format recover sink).result = .error (.lex e)) := by
  constructor
  · rintro accounts ⟨rfl, fails, e, returned⟩
    obtain ⟨input, others⟩ := fails.unreported format sink 0 0 returned
    have lexical := others e (accounts e returned).reported
    rw [input] at lexical
    cases lexical
  · intro other e returned
    refine printFrom_accounts format recover (ofSource source) sink 0 0 ?_ e returned
    exact fun on fails => other ⟨on, fails, e, returned⟩

/-- The input fails behind a character that is no token, before the end of its line. -/
theorem skipping_failure_unaccounted :
    let source : Source := [.byte 35, .pause, .failure ⟨.brokenPipe, "pipe closed"⟩]
    let sink := Sink.empty none (some Sink.flushRefused)
    let run := (ofSource source).print .plain true sink
    run.result = .error (.lex (.input ⟨.brokenPipe, "pipe closed"⟩)) ∧
      run.log = [.reported (.illegalCharacter '#' ⟨1, 1⟩)] ∧ ¬ run.Accounts sink := by
  intro source sink run
  have result : run.result = .error (.lex (.input ⟨.brokenPipe, "pipe closed"⟩)) := by
    decide +kernel
  refine ⟨result, by decide +kernel, ?_⟩
  intro accounts
  have flushes := (accounts _ result).flushes
  cases flushes

end Lexer

end JamTokens
