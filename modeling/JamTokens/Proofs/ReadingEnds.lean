import JamTokens.Proofs.Consumption
import JamTokens.Proofs.Stopping

/-!
# Reading comes to an end

What a source can be read for is bounded by what it consists of: its
characters, its failures, and its segments that are no text.  Every read that
does not find the end uses one of these up.  So reading on from wherever a
session has come to ends, whether it stops, goes on or flushes after an error,
and so does a run that prints.
-/

set_option autoImplicit false

namespace JamTokens

/-! ## What a source consists of -/

def Segment.chars (s : Segment) : List Char := (Utf8.decode? s.bytes).getD []

def SourceEvent.fails : SourceEvent → Bool
  | failure f => f.kind != .interrupted
  | _ => false

namespace Source

def characters (source : Source) : Nat :=
  (source.uninterrupted.segments.flatMap Segment.chars).length

def failures (source : Source) : Nat := source.countP SourceEvent.fails

def invalidSegments (source : Source) : Nat :=
  source.uninterrupted.segments.countP fun s => (Utf8.decode? s.bytes).isNone

end Source

theorem Segment.stream_length_le (s : Segment) :
    s.stream.length ≤
      s.chars.length + s.ending.failure?.toList.length +
        if (Utf8.decode? s.bytes).isNone then 1 else 0 := by
  unfold stream chars
  cases Utf8.decode? s.bytes with
  | none => cases s.ending.failure? <;> simp
  | some text => cases s.ending.failure? <;> simp

theorem CharStream.length_ofSegments_le (segments : List Segment) :
    (ofSegments segments).length ≤
      (segments.flatMap Segment.chars).length +
        segments.countP (·.ending.failure?.isSome) +
        segments.countP fun s => (Utf8.decode? s.bytes).isNone := by
  induction segments with
  | nil => exact Nat.zero_le _
  | cons s later ih =>
      rw [ofSegments]
      split
      · exact Nat.zero_le _
      · have first := s.stream_length_le
        have failed : s.ending.failure?.toList.length =
            if s.ending.failure?.isSome then 1 else 0 := by
          cases s.ending.failure? <;> rfl
        simp only [List.length_append, List.flatMap_cons, List.countP_cons]
        omega

namespace Source

theorem countP_begun (bytes : List UInt8) (segments : List Segment) :
    (Segment.begun bytes segments).countP (·.ending.failure?.isSome) =
      segments.countP (·.ending.failure?.isSome) := by
  cases segments with
  | nil =>
      by_cases nothing : bytes = []
      · rw [nothing]
        rfl
      · rw [Segment.begun, if_neg nothing]
        rfl
  | cons s later => rfl

theorem countP_segments (source : Source) :
    source.uninterrupted.segments.countP (·.ending.failure?.isSome) = source.failures := by
  induction source with
  | nil => rfl
  | cons event rest ih =>
      have counted : failures (event :: rest) = failures rest + if event.fails then 1 else 0 :=
        List.countP_cons ..
      rw [counted, ← ih]
      cases event with
      | byte b =>
          rw [uninterrupted_byte, segments]
          split
          · rfl
          · exact countP_begun [b] _
      | pause => rfl
      | failure f =>
          by_cases again : f.kind = .interrupted
          · rw [uninterrupted_interrupted again]
            simp [SourceEvent.fails, again]
          · rw [uninterrupted_failure again, segments, List.countP_cons]
            simp [SourceEvent.fails, again, Ending.failure?]

theorem stream_length_le (source : Source) :
    source.stream.length ≤ source.characters + source.failures + source.invalidSegments := by
  rw [← countP_segments]
  exact CharStream.length_ofSegments_le _

/-- As many reads as are ever needed to come to the end. -/
def readsNeeded (source : Source) : Nat :=
  source.characters + source.failures + source.invalidSegments + 1

end Source

/-! ## Reading on -/

namespace Lexer

/-- What at most so many reads return, if the last of them ends it.  For each read it is chosen what
follows an error. -/
def iterate (choice : Nat → OnError) : Nat → Lexer → Option (List Item × Lexer)
  | 0, _ => none
  | reads + 1, l =>
    let onward := iterate (fun n => choice (n + 1)) reads
    match l.read with
    | (.ok none, l') => some ([], l')
    | (.ok (some t), l') =>
      (onward l').map fun (rest, last) => (.token t l'.position :: rest, last)
    | (.error e, l') =>
      match choice 0 with
      | .stop => some ([.error e], l')
      | .readOn => (onward l').map fun (rest, last) => (.error e :: rest, last)
      | .flush =>
        let errors := match l'.flush.1 with
          | .ok () => [.error e]
          | .error e' => [.error e, .error e']
        (onward l'.flush.2).map fun (rest, last) => (errors ++ rest, last)

def printWithin (format : OutputFormat) (recover : Bool) :
    Nat → Lexer → Sink → Nat → Nat → Option Printed
  | 0, _, _, _, _ => none
  | reads + 1, l, sink, tokens, errors =>
    match l.read with
    | (.ok (some t), l') =>
      match sink.writeToken format t l'.position with
      | (.ok (), sink) => printWithin format recover reads l' sink (tokens + 1) errors
      | (.error e, sink) => some ⟨.error e, sink, l', []⟩
    | (.ok none, l') =>
      some (l'.close sink (if errors = 0 then .ok () else .error (.recovered errors))
        [.reachedEnd tokens errors])
    | (.error e, l') =>
      if recover && !e.isInput then
        match l'.flush with
        | (.ok (), l'') =>
          (printWithin format recover reads l'' sink tokens (errors + 1)).map
            (·.logged [.reported e, .flushedLine l''.line])
        | (.error e', l'') => some ⟨.error (.lex e'), sink, l'', [.reported e]⟩
      else some ((l'.close sink (.error (.lex e)) []).logged [.reported e])

/-- A read that does not find the end leaves fewer reads to come, with or without a flush behind. -/
theorem fewer_reads {a : Ledger} (h : a.Balanced) {l' : Lexer}
    {result : Except LexError (Option Token)} (called : a.lexer.read = (result, l'))
    (more : result ≠ .ok none) {reads : Nat} (enough : a.unused.length < reads + 1) :
    (∃ b : Ledger, b.Balanced ∧ b.lexer = l' ∧ b.unused.length < reads) ∧
      ∃ b : Ledger, b.Balanced ∧ b.lexer = l'.flush.2 ∧ b.unused.length < reads := by
  have balanced := (Ledger.call_spends h .read).2
  have less := Ledger.read_length_lt h (by rw [call, called]; exact more)
  have behind : (a.call .read).lexer = l' := congrArg Prod.snd called
  have flushed := Ledger.call_length_le balanced .flush
  refine ⟨⟨a.call .read, balanced, behind, by omega⟩,
    ⟨(a.call .read).call .flush, (Ledger.call_spends balanced .flush).2, ?_, by omega⟩⟩
  rw [← behind]
  rfl

theorem iterate_ends (choice : Nat → OnError) {reads : Nat} {a : Ledger} (h : a.Balanced)
    (enough : a.unused.length < reads) : ∃ read, a.lexer.iterate choice reads = some read := by
  -- each read takes one of the reads left, and something of what is unused
  induction reads generalizing choice a with
  | zero => exact absurd enough (Nat.not_lt_zero _)
  | succ reads ih =>
      rw [iterate]
      rcases called : a.lexer.read with ⟨e | (_ | t), l'⟩
      · obtain ⟨⟨b, balanced, behind, fewer⟩, ⟨b', balanced', behind', fewer'⟩⟩ :=
          fewer_reads h called nofun enough
        cases choice 0 with
        | stop => exact ⟨_, rfl⟩
        | readOn =>
            obtain ⟨read, onward⟩ := ih (fun n => choice (n + 1)) balanced fewer
            rw [behind] at onward
            simp [onward]
        | flush =>
            obtain ⟨read, onward⟩ := ih (fun n => choice (n + 1)) balanced' fewer'
            rw [behind'] at onward
            simp [onward]
      · exact ⟨_, rfl⟩
      · obtain ⟨⟨b, balanced, behind, fewer⟩, -⟩ := fewer_reads h called nofun enough
        obtain ⟨read, onward⟩ := ih (fun n => choice (n + 1)) balanced fewer
        rw [behind] at onward
        simp [onward]

theorem items_of_iterate (policy : OnError) {reads : Nat} {l : Lexer} {read : List Item × Lexer}
    (h : l.iterate (fun _ => policy) reads = some read) : l.items policy = read := by
  induction reads generalizing l read with
  | zero => cases h
  | succ reads ih =>
      rw [iterate] at h
      rcases called : l.read with ⟨e | (_ | t), l'⟩ <;> rw [called] at h <;> dsimp only at h
      · rw [items]
        split <;> rename_i found <;> rw [called] at found <;> cases found
        cases policy with
        | stop =>
            cases h
            rfl
        | readOn =>
            obtain ⟨onward, later, rfl⟩ := Option.map_eq_some_iff.mp h
            dsimp only
            rw [ih later]
        | flush =>
            obtain ⟨onward, later, rfl⟩ := Option.map_eq_some_iff.mp h
            cases l'.flush.1 <;> dsimp only <;> rw [ih later]
      · cases h
        exact items_of_end policy called
      · obtain ⟨onward, later, rfl⟩ := Option.map_eq_some_iff.mp h
        rw [items_of_token policy called, ih later]

theorem printWithin_ends (format : OutputFormat) (recover : Bool) {reads : Nat} {a : Ledger}
    (h : a.Balanced) (enough : a.unused.length < reads) (sink : Sink) (tokens errors : Nat) :
    a.lexer.printWithin format recover reads sink tokens errors =
      some (a.lexer.printFrom format recover sink tokens errors) := by
  induction reads generalizing a sink tokens errors with
  | zero => exact absurd enough (Nat.not_lt_zero _)
  | succ reads ih =>
      rw [printWithin]
      rcases called : a.lexer.read with ⟨e | (_ | t), l'⟩
      · obtain ⟨-, ⟨b, balanced, behind, fewer⟩⟩ := fewer_reads h called nofun enough
        dsimp only
        cases recovers : recover && !e.isInput with
        | false => rw [printFrom_of_stop format sink tokens errors called recovers]; rfl
        | true =>
            obtain ⟨rfl, lexical⟩ : recover = true ∧ e.isInput = false := by simpa using recovers
            rcases flushed : l'.flush with ⟨e' | _, l''⟩
            · rw [printFrom_of_failed_flush format sink tokens errors called lexical flushed]
              rfl
            · rw [flushed] at behind
              have onward := ih balanced fewer sink tokens (errors + 1)
              rw [behind] at onward
              dsimp only at onward ⊢
              rw [if_pos rfl, printFrom_of_error format sink tokens errors called lexical flushed, onward]
              rfl
      · rw [printFrom_of_end format recover sink tokens errors called]
      · obtain ⟨⟨b, balanced, behind, fewer⟩, -⟩ := fewer_reads h called nofun enough
        dsimp only
        rcases written : sink.writeToken format t l'.position with ⟨refused | _, sink'⟩
        · rw [printFrom_of_refusal format recover tokens errors called written]
        · have onward := ih balanced fewer sink' (tokens + 1) errors
          rw [behind] at onward
          rw [printFrom_of_token format recover tokens errors called written]
          exact onward

theorem afterRequests_calls (l : Lexer) (calls : List Call) :
    l.afterRequests (calls.map .call) = l.afterCalls calls := by
  induction calls generalizing l with
  | nil => rfl
  | cons c calls ih => exact ih (l.call c).2

end Lexer

theorem BufferedLexer.call_draws (source : Source) (calls : List Call) (c : Call) :
    ∃ responses l l', (ofSource source).run (calls.map .call) = .ok (responses, l) ∧
      l.call c = .ok ((((Lexer.ofSource source).afterCalls calls).call c).1, l') ∧
      l.buffer.Draws l'.buffer
        (LexError.inputFailure? (((Lexer.ofSource source).afterCalls calls).call c).1).isSome := by
  obtain ⟨l, run, shows⟩ := run_meets (ofSource_shows source) (calls.map .call)
  rw [Lexer.afterRequests_calls] at shows
  obtain ⟨l', called, -, draws⟩ := call_meets shows c
  exact ⟨_, l, l', run, called, draws⟩

/-! ## The end -/

namespace Source

/-- Wherever a session with the source has come to, reading on makes progress and ends. -/
structure ReadingEnds (source : Source) : Prop where
  /-- A ledger is kept of the session itself. -/
  kept : ∀ calls,
    ((Ledger.ofSource source).after calls).lexer = (Lexer.ofSource source).afterCalls calls
  /-- A read that returns a token or an error with a position has characters of its own. -/
  spends : ∀ calls c, ((Ledger.ofSource source).after calls).Spends c
  /-- A call that returns a failure of the input has drawn a byte or a failure from the source. -/
  draws : ∀ calls c, ∃ responses l l',
    (BufferedLexer.ofSource source).run (calls.map .call) = .ok (responses, l) ∧
      l.call c = .ok ((((Lexer.ofSource source).afterCalls calls).call c).1, l') ∧
      l.buffer.Draws l'.buffer
        (LexError.inputFailure? (((Lexer.ofSource source).afterCalls calls).call c).1).isSome
  /-- The reads needed are enough, whatever is done after each error. -/
  iterates : ∀ calls choice, ∃ read,
    ((Lexer.ofSource source).afterCalls calls).iterate choice source.readsNeeded = some read
  items : ∀ calls policy,
    ((Lexer.ofSource source).afterCalls calls).iterate (fun _ => policy) source.readsNeeded =
      some (((Lexer.ofSource source).afterCalls calls).items policy)
  prints : ∀ format recover sink,
    (Lexer.ofSource source).printWithin format recover source.readsNeeded sink 0 0 =
      some ((Lexer.ofSource source).print format recover sink)

theorem unused_lt_readsNeeded (source : Source) (calls : List Call) :
    ((Ledger.ofSource source).after calls).unused.length < source.readsNeeded := by
  have session := Ledger.after_length_le (Ledger.balanced_ofSource source) calls
  exact Nat.lt_succ_of_le (Nat.le_trans session source.stream_length_le)

theorem reading_ends (source : Source) : source.ReadingEnds := by
  have balanced := Ledger.after_balanced (Ledger.balanced_ofSource source)
  have kept := (Ledger.ofSource source).after_lexer
  have enough := source.unused_lt_readsNeeded
  have iterates : ∀ calls choice, ∃ read,
      ((Lexer.ofSource source).afterCalls calls).iterate choice source.readsNeeded = some read := by
    intro calls choice
    obtain ⟨read, iterated⟩ := Lexer.iterate_ends choice (balanced calls) (enough calls)
    rw [kept] at iterated
    exact ⟨read, iterated⟩
  refine ⟨kept, fun calls c => (Ledger.call_spends (balanced calls) c).1,
    BufferedLexer.call_draws source, iterates, ?_, ?_⟩
  · intro calls policy
    obtain ⟨read, iterated⟩ := iterates calls fun _ => policy
    rw [iterated, Lexer.items_of_iterate policy iterated]
  · intro format recover sink
    exact Lexer.printWithin_ends format recover (balanced []) (enough []) sink 0 0

/-- Where every character is an error of its own no read can be spared. -/
example :
    readsNeeded (.ofText ['#', '#']) = 3 ∧
      (Lexer.ofSource (.ofText ['#', '#'])).iterate (fun _ => .readOn) 2 = none := by
  decide +kernel

end Source

end JamTokens
