import JamTokens.Proofs.Assembly

/-!
# Peeking leaves no trace

A run pulls tokens from a lexer, now by reading and now by peeking.  A peek
that succeeds is silent; one that fails uses its error up, as a read would.
Without its silent peeks a run is a run of reads, and a silent peek tells what
the next of these reads returns.

Behind each step the lexer is compared with one that has made the reads only:
it is either as far, or ahead by the one token that has been peeked at.
-/

set_option autoImplicit false

namespace JamTokens

inductive Pull
  | read | peek
  deriving DecidableEq, Repr

/-- A call of a run with its result, and the token position before and behind it. -/
structure Step where
  pull : Pull
  result : Except LexError (Option Token)
  before : Position
  after : Position

namespace Step

def outcome (s : Step) : Except LexError (Option Token) × Position := (s.result, s.after)

def isSilent (s : Step) : Bool := s.pull == .peek && s.result.isOk

end Step

def audible (steps : List Step) : List Step := steps.filter (!·.isSilent)

namespace Lexer

def pull : Pull → Lexer → Except LexError (Option Token) × Lexer
  | .read, l => l.read
  | .peek, l => l.peek

def step (l : Lexer) (call : Pull) : Step :=
  ⟨call, (l.pull call).1, l.position, (l.pull call).2.position⟩

def run (l : Lexer) : List Pull → List Step
  | [] => []
  | call :: calls => l.step call :: (l.pull call).2.run calls

def reads (l : Lexer) (n : Nat) : List Step := l.run (List.replicate n .read)

/-! ## A lexer that may be ahead by a token -/

/-- The second lexer is the first, but may have peeked at the next token. -/
structure Ahead (plain l : Lexer) : Prop where
  plainSettled : plain.scanner.Settled
  settled : l.scanner.Settled
  fresh : plain.peeked = none
  position : l.position = plain.position
  pending : match l.peeked with
    | none => l.pending = plain.pending
    | some next => plain.pending.assemble = (.ok (some next), l.pending)

theorem ahead_refl (l : Lexer) (settled : l.scanner.Settled) (fresh : l.peeked = none) :
    Ahead l l := by
  refine ⟨settled, settled, fresh, rfl, ?_⟩
  rw [fresh]

theorem ahead_read {plain l : Lexer} (h : Ahead plain l) :
    l.read.1 = plain.read.1 ∧ Ahead plain.read.2 l.read.2 := by
  obtain ⟨plainSettled, settled, fresh, position, pending⟩ := h
  obtain ⟨plainResult, plainLeft, plainPosition, plainFresh, plainSettled'⟩ :=
    plain.read_fresh plainSettled fresh
  cases peeked : l.peeked with
  | none =>
      rw [peeked] at pending
      dsimp only at pending
      obtain ⟨result, left, position', fresh', settled'⟩ := l.read_fresh settled peeked
      rw [pending] at result left position'
      refine ⟨by rw [result, plainResult], plainSettled', settled', plainFresh, ?_, ?_⟩
      · rw [position', plainPosition, position]
      · rw [fresh']
        dsimp only
        rw [left, plainLeft]
  | some next =>
      obtain ⟨token, start⟩ := next
      rw [peeked] at pending
      dsimp only at pending
      have called : l.read = (.ok (some token), { l with peeked := none, position := start }) := by
        simp [read, peeked]
      rw [pending] at plainResult plainLeft plainPosition
      rw [called]
      refine ⟨by rw [plainResult]; rfl, plainSettled', settled, plainFresh, ?_, ?_⟩
      · rw [plainPosition]
        rfl
      · rw [plainLeft]
        rfl

/-- A peek that succeeds tells the next read, and brings the lexer no further than that. -/
theorem ahead_peek_ok {plain l : Lexer} (h : Ahead plain l) {token : Option Token}
    (ok : l.peek.1 = .ok token) :
    plain.read.1 = .ok token ∧ Ahead plain l.peek.2 := by
  obtain ⟨plainSettled, settled, fresh, position, pending⟩ := h
  obtain ⟨plainResult, -⟩ := plain.read_fresh plainSettled fresh
  cases peeked : l.peeked with
  | none =>
      rw [peeked] at pending
      dsimp only at pending
      obtain ⟨result, left, position', peeked', settled'⟩ := l.peek_fresh settled peeked
      rw [pending] at result left peeked'
      refine ⟨by rw [plainResult, ← result, ok], plainSettled, settled', fresh, ?_, ?_⟩
      · rw [position', position]
      · rw [peeked', left]
        rcases made : plain.pending.assemble with ⟨e | (_ | next), rest⟩
        · rw [made] at result
          rw [ok] at result
          cases result
        · exact Pending.assemble_end made
        · rfl
  | some next =>
      obtain ⟨found, start⟩ := next
      have called : l.peek = (.ok (some found), l) := by simp [peek, peeked]
      rw [called] at ok ⊢
      rw [peeked] at pending
      dsimp only at pending
      refine ⟨by rw [plainResult, pending, ← ok]; rfl, plainSettled, settled, fresh, position, ?_⟩
      rw [peeked]
      exact pending

theorem ahead_peek_error {plain l : Lexer} (h : Ahead plain l) {e : LexError}
    (failed : l.peek.1 = .error e) :
    plain.read.1 = .error e ∧ Ahead plain.read.2 l.peek.2 := by
  obtain ⟨plainSettled, settled, fresh, position, pending⟩ := h
  obtain ⟨plainResult, plainLeft, plainPosition, plainFresh, plainSettled'⟩ :=
    plain.read_fresh plainSettled fresh
  cases peeked : l.peeked with
  | none =>
      rw [peeked] at pending
      dsimp only at pending
      obtain ⟨result, left, position', peeked', settled'⟩ := l.peek_fresh settled peeked
      rw [pending] at result left peeked'
      have failing : plain.pending.assemble.1 = .error e := by
        rw [failed] at result
        rcases made : plain.pending.assemble.1 with e' | next
        · rw [made] at result
          cases result
          rfl
        · rw [made] at result
          cases result
      refine ⟨by rw [plainResult, failing]; rfl, plainSettled', settled', plainFresh, ?_, ?_⟩
      · rw [position', plainPosition, position, failing]
        rfl
      · have nothing : l.peek.2.peeked = none := by
          rw [peeked', failing]
          rfl
        rw [nothing]
        dsimp only
        rw [left, plainLeft]
  | some next =>
      obtain ⟨found, start⟩ := next
      have called : l.peek = (.ok (some found), l) := by simp [peek, peeked]
      rw [called] at failed
      cases failed

theorem peek_position (l : Lexer) (settled : l.scanner.Settled) :
    l.peek.2.position = l.position := by
  cases peeked : l.peeked with
  | none => exact (l.peek_fresh settled peeked).2.2.1
  | some next => simp [peek, peeked]

theorem ahead_pull {plain l : Lexer} (h : Ahead plain l) (call : Pull) :
    (l.step call).result = plain.read.1 ∧
      (((l.step call).isSilent = true ∧ Ahead plain (l.pull call).2) ∨
        ((l.step call).isSilent = false ∧ Ahead plain.read.2 (l.pull call).2)) := by
  cases call with
  | read =>
      obtain ⟨result, ahead⟩ := ahead_read h
      exact ⟨result, Or.inr ⟨rfl, ahead⟩⟩
  | peek =>
      rcases result : l.peek.1 with e | token
      · obtain ⟨plainResult, ahead⟩ := ahead_peek_error h result
        refine ⟨result.trans plainResult.symm, Or.inr ⟨?_, ahead⟩⟩
        simp [Step.isSilent, step, pull, result, Except.isOk, Except.toBool]
      · obtain ⟨plainResult, ahead⟩ := ahead_peek_ok h result
        refine ⟨result.trans plainResult.symm, Or.inl ⟨?_, ahead⟩⟩
        simp [Step.isSilent, step, pull, result, Except.isOk, Except.toBool]

/-! ## Runs -/

theorem reads_succ (l : Lexer) (n : Nat) :
    l.reads (n + 1) = l.step .read :: l.read.2.reads n := rfl

theorem audible_cons_silent {s : Step} (h : s.isSilent = true) (steps : List Step) :
    audible (s :: steps) = audible steps := by
  simp [audible, h]

theorem audible_cons {s : Step} (h : s.isSilent = false) (steps : List Step) :
    audible (s :: steps) = s :: audible steps := by
  simp [audible, h]

theorem audible_run {plain l : Lexer} (h : Ahead plain l) (calls : List Pull) :
    (audible (l.run calls)).map Step.outcome =
      (plain.reads (audible (l.run calls)).length).map Step.outcome := by
  induction calls generalizing plain l with
  | nil => rfl
  | cons call calls ih =>
      rw [run]
      obtain ⟨result, ⟨silent, ahead⟩ | ⟨loud, ahead⟩⟩ := ahead_pull h call
      · rw [audible_cons_silent silent]
        exact ih ahead
      · have outcome : (l.step call).outcome = (plain.step .read).outcome :=
          Prod.ext result ahead.position
        rw [audible_cons loud, List.map_cons, List.length_cons, reads_succ, List.map_cons, outcome,
          ih ahead]

/-- A silent peek tells what the read after the audible steps before it returns. -/
theorem silent_run {plain l : Lexer} (h : Ahead plain l) (calls : List Pull)
    (earlier : List Step) (s : Step) (later : List Step) (split : l.run calls = earlier ++ s :: later)
    (silent : s.isSilent = true) :
    (audible earlier).map Step.result ++ [s.result] =
      (plain.reads ((audible earlier).length + 1)).map Step.result := by
  induction calls generalizing plain l earlier with
  | nil => simp [run] at split
  | cons call calls ih =>
      rw [run] at split
      cases earlier with
      | nil =>
          rw [List.nil_append, List.cons.injEq] at split
          obtain ⟨rfl, -⟩ := split
          rw [(ahead_pull h call).1]
          rfl
      | cons first earlier =>
          rw [List.cons_append, List.cons.injEq] at split
          obtain ⟨rfl, split⟩ := split
          obtain ⟨result, ⟨firstSilent, ahead⟩ | ⟨loud, ahead⟩⟩ := ahead_pull h call
          · rw [audible_cons_silent firstSilent]
            exact ih ahead earlier split
          · have same : (l.step call).result = (plain.step .read).result := result
            rw [audible_cons loud, List.map_cons, List.length_cons, reads_succ, List.map_cons,
              List.cons_append, ih ahead earlier split, same]

theorem peek_run {plain l : Lexer} (h : Ahead plain l) (calls : List Pull) :
    ∀ s ∈ l.run calls, s.pull = .peek → s.after = s.before := by
  induction calls generalizing plain l with
  | nil =>
      intro s found
      cases found
  | cons call calls ih =>
      intro s found isPeek
      rcases List.mem_cons.mp found with rfl | found
      · subst isPeek
        exact l.peek_position h.settled
      · obtain ⟨-, ⟨-, ahead⟩ | ⟨-, ahead⟩⟩ := ahead_pull h call
        · exact ih ahead s found isPeek
        · exact ih ahead s found isPeek

/-- Whatever the source does and however peeks and reads are mixed: without the silent peeks, the
results and the token positions are those of as many reads; each silent peek tells the result of
the next of these reads; and no peek moves the token position. -/
theorem peeks_leave_no_trace (source : Source) (calls : List Pull) :
    (audible ((ofSource source).run calls)).map Step.outcome =
        ((ofSource source).reads (audible ((ofSource source).run calls)).length).map Step.outcome ∧
      (∀ earlier s later, (ofSource source).run calls = earlier ++ s :: later →
        s.isSilent = true →
          (audible earlier).map Step.result ++ [s.result] =
            ((ofSource source).reads ((audible earlier).length + 1)).map Step.result) ∧
      (∀ s ∈ (ofSource source).run calls, s.pull = .peek → s.after = s.before) := by
  have start : Ahead (ofSource source) (ofSource source) :=
    ahead_refl _ (Scanner.settled_ofFeed source.feed) rfl
  exact ⟨audible_run start calls, silent_run start calls, peek_run start calls⟩

end Lexer

end JamTokens
