import JamTokens.Proofs.Telling

/-!
# Counters of 32 bits

The counters of a cursor have 32 bits, and a program can be built in two ways.
One stops where a counter has no next number, before the call returns that
would have moved on.  The other goes on with counters that come round to zero.

What the first way has told when it stops is a front of what is met with
counters that have no end, and its lines are the same.  So nothing that is told
after an error ever lies on the line of the error.  The other way tells all
that is met, each place as far as 32 bits show it.
-/

set_option autoImplicit false

namespace JamTokens

/-! ## Counters that come round -/

theorem LexError.isInput_recount (r : Recount) (e : LexError) :
    (e.recount r).isInput = e.isInput := by
  cases e with
  | _ => rfl

theorem Item.place?_recount (r : Recount) (item : Item) :
    (item.recount r).place? = item.place?.map r.place := by
  cases item with
  | token t start => rfl
  | error e =>
      cases e with
      | _ => rfl

theorem Item.wrapping_leavesLine {items : List Item} (sorted : items.Pairwise LeavesLine)
    (low : ∀ item ∈ items, ∀ p ∈ item.place?, p.line < UInt32.size) :
    (items.map (recount .wrapping)).Pairwise LeavesLine := by
  rw [List.pairwise_map]
  apply sorted.imp_of_mem
  intro earlier later inside inside' leaves e same q place q' place'
  cases earlier with
  | token t start => cases same
  | error given =>
      cases same
      have shown : (Item.error given).place?.map Recount.wrapping.place = some q :=
        (place?_recount _ _).symm.trans place
      obtain ⟨p, told, rfl⟩ := Option.map_eq_some_iff.mp shown
      rw [place?_recount] at place'
      obtain ⟨p', told', rfl⟩ := Option.map_eq_some_iff.mp place'
      have lower := leaves given rfl p told p' told'
      simp only [Recount.wrapping]
      rw [Nat.mod_eq_of_lt (low _ inside p told), Nat.mod_eq_of_lt (low _ inside' p' told')]
      exact lower

namespace Lexer

theorem recounted_met {r : Recount} {l m : Lexer} (h : Recounted r l m) :
    @met r.there m = (@met r.here l).map (Item.recount r) := by
  induction l using @reads_induction r.here generalizing m with
  | ended l l' called =>
      obtain ⟨made, -⟩ := recounted_read h
      rw [called] at made
      obtain ⟨m', called', -⟩ := made.outcome
      rw [@met_of_end r.here _ _ called, @met_of_end r.there _ _ called', List.map_nil]
  | token l l' t called ih =>
      obtain ⟨made, begins⟩ := recounted_read h
      rw [called] at made begins
      obtain ⟨m', called', lexer⟩ := made.outcome
      rw [called'] at begins
      rw [@met_of_token r.here _ _ _ called, @met_of_token r.there _ _ _ called', ih lexer,
        begins t rfl, List.map_cons]
      rfl
  | error l l' e called ih =>
      obtain ⟨made, -⟩ := recounted_read h
      rw [called] at made
      obtain ⟨m', called', lexer⟩ := made.outcome
      cases lexical : e.isInput with
      | true =>
          obtain ⟨f, rfl⟩ := LexError.isInput_iff.mp lexical
          rw [@met_of_input r.here _ _ _ called, @met_of_input r.there _ _ _ called', List.map_nil]
      | false =>
          have lexical' := (e.isInput_recount r).trans lexical
          have flushes := recounted_flush lexer
          rcases flushed : @flush r.here l' with ⟨e' | _, l''⟩
          · rw [flushed] at flushes
            obtain ⟨m'', flushed', -⟩ := flushes.outcome
            rw [@met_of_failed_flush r.here _ _ _ _ _ called lexical flushed,
              @met_of_failed_flush r.there _ _ _ _ _ called' lexical' flushed', List.map_singleton]
            rfl
          · rw [flushed] at ih flushes
            obtain ⟨m'', flushed', behind⟩ := flushes.outcome
            rw [@met_of_error r.here _ _ _ _ called lexical flushed,
              @met_of_error r.there _ _ _ _ called' lexical' flushed', ih behind, List.map_cons]
            rfl

theorem recounted_ofSource (source : Source) :
    Recounted .wrapping (ofSource source) (ofSource source) :=
  ⟨⟨rfl, rfl, rfl⟩, rfl, rfl⟩

theorem met_wrapping (source : Source) :
    @met .wrapping (ofSource source) = (ofSource source).met.map (Item.recount .wrapping) :=
  recounted_met (recounted_ofSource source)

end Lexer

/-! ## Counters that stop the program -/

namespace Position

/-- Each place that is reached on the way over the text has numbers of 32 bits. -/
def counts (p : Position) : List Char → Bool
  | [] => true
  | c :: text =>
    let next := p.step c
    next.line < UInt32.size && next.column < UInt32.size && next.counts text

theorem counts_line {p : Position} {text : List Char} (h : p.counts text)
    (low : p.line < UInt32.size) : (p.after text).line < UInt32.size := by
  induction text generalizing p with
  | nil => exact low
  | cons c text ih =>
      simp only [counts, Bool.and_eq_true, decide_eq_true_eq] at h
      exact ih h.2 h.1.1

end Position

/-- What a program has printed and logged when its run ends, or when the program stops. -/
structure Halted where
  sink : Sink
  log : List LogEntry
  /-- The result of the run, unless the program has stopped. -/
  result : Option (Except RunError Unit)

namespace Halted

def ofPrinted (p : Printed) : Halted := ⟨p.sink, p.log, some p.result⟩

def logged (entries : List LogEntry) (h : Halted) : Halted := { h with log := entries ++ h.log }

def reported (h : Halted) : List LexError :=
  h.log.filterMap fun
    | .reported e => some e
    | _ => none

end Halted

namespace Lexer

/-- The counters have numbers for all places that are reached from the first lexer to the second. -/
def counts (l l' : Lexer) : Bool :=
  let passed : Feed := l.cursor.feed.take (l.cursor.feed.length - l'.cursor.feed.length)
  l.cursor.position.counts passed.chars

theorem counts_line {l l' : Lexer} (moves : l.cursor.MovesTo l'.cursor) (h : l.counts l')
    (low : l.line < UInt32.size) : l'.line < UInt32.size := by
  obtain ⟨front, feed, position⟩ := moves
  have passed : l.cursor.feed.take (l.cursor.feed.length - l'.cursor.feed.length) = front := by
    rw [feed, List.length_append, Nat.add_sub_cancel, List.take_left]
  rw [counts, passed] at h
  have reached : l'.line = (l.cursor.position.after front.chars).line :=
    congrArg Position.line position
  rw [reached]
  exact Position.counts_line h low

/-- Prints as `printFrom` does, but stops in the call in which a counter has no next number. -/
def printStopping (format : OutputFormat) (recover : Bool) (l : Lexer) (sink : Sink)
    (tokens errors : Nat) : Halted :=
  if l.counts l.read.2 then
    match _h : l.read with
    | (.ok (some t), l') =>
      match sink.writeToken format t l'.position with
      | (.ok (), sink) => printStopping format recover l' sink (tokens + 1) errors
      | (.error e, sink) => ⟨sink, [], some (.error e)⟩
    | (.ok none, l') =>
      .ofPrinted (l'.close sink (if errors = 0 then .ok () else .error (.recovered errors))
        [.reachedEnd tokens errors])
    | (.error e, l') =>
      if recover && !e.isInput then
        if l'.counts l'.flush.2 then
          match _h' : l'.flush with
          | (.ok (), l'') =>
            (printStopping format recover l'' sink tokens (errors + 1)).logged
              [.reported e, .flushedLine l''.line]
          | (.error e', _) => ⟨sink, [.reported e], some (.error (.lex e'))⟩
        else ⟨sink, [.reported e], none⟩
      else .ofPrinted ((l'.close sink (.error (.lex e)) []).logged [.reported e])
  else ⟨sink, [], none⟩
termination_by l.work
decreasing_by
  all_goals
    have hread := l.read_work_lt (by simp [_h])
    rw [_h] at hread
  · exact hread
  · have hflush := l'.flush_work_le
    rw [_h'] at hflush
    exact Nat.lt_of_le_of_lt hflush hread

/-! ### From read to read -/

section

variable {l l' l'' : Lexer} {sink sink' : Sink} {t : Token} {e : LexError}
  (format : OutputFormat) (recover : Bool) (tokens errors : Nat)

theorem printStopping_of_uncounted (sink : Sink) (ends : l.counts l.read.2 = false) :
    l.printStopping format recover sink tokens errors = ⟨sink, [], none⟩ := by
  rw [printStopping, ends]
  rfl

theorem printStopping_of_end (sink : Sink) (h : l.read = (.ok none, l')) (counted : l.counts l') :
    l.printStopping format recover sink tokens errors =
      .ofPrinted (l.printFrom format recover sink tokens errors) := by
  rw [printFrom_of_end format recover sink tokens errors h, printStopping, h, if_pos counted]

theorem printStopping_of_token (h : l.read = (.ok (some t), l')) (counted : l.counts l')
    (written : sink.writeToken format t l'.position = (.ok (), sink')) :
    l.printStopping format recover sink tokens errors =
      l'.printStopping format recover sink' (tokens + 1) errors := by
  rw [printStopping, h, if_pos counted]
  dsimp only
  rw [written]

theorem printStopping_of_refusal {refused : RunError} (h : l.read = (.ok (some t), l'))
    (counted : l.counts l')
    (written : sink.writeToken format t l'.position = (.error refused, sink')) :
    l.printStopping format recover sink tokens errors =
      .ofPrinted (l.printFrom format recover sink tokens errors) := by
  rw [printFrom_of_refusal format recover tokens errors h written, printStopping, h, if_pos counted]
  dsimp only
  rw [written]
  rfl

theorem printStopping_of_stop {recover : Bool} (sink : Sink) (h : l.read = (.error e, l'))
    (counted : l.counts l') (stops : (recover && !e.isInput) = false) :
    l.printStopping format recover sink tokens errors =
      .ofPrinted (l.printFrom format recover sink tokens errors) := by
  rw [printFrom_of_stop format sink tokens errors h stops, printStopping, h, if_pos counted]
  dsimp only
  rw [stops]
  rfl

theorem printStopping_of_uncounted_flush (sink : Sink) (h : l.read = (.error e, l'))
    (counted : l.counts l') (lexical : e.isInput = false) (ends : l'.counts l'.flush.2 = false) :
    l.printStopping format true sink tokens errors = ⟨sink, [.reported e], none⟩ := by
  rw [printStopping, h, if_pos counted]
  dsimp only
  rw [lexical, ends]
  rfl

theorem printStopping_of_error (sink : Sink) (h : l.read = (.error e, l')) (counted : l.counts l')
    (lexical : e.isInput = false) (flushed : l'.flush = (.ok (), l'')) (counted' : l'.counts l'') :
    l.printStopping format true sink tokens errors =
      (l''.printStopping format true sink tokens (errors + 1)).logged
        [.reported e, .flushedLine l''.line] := by
  rw [printStopping, h, if_pos counted]
  dsimp only
  rw [lexical, flushed, if_pos counted']
  rfl

theorem printStopping_of_failed_flush {e' : LexError} (sink : Sink) (h : l.read = (.error e, l'))
    (counted : l.counts l') (lexical : e.isInput = false) (flushed : l'.flush = (.error e', l''))
    (counted' : l'.counts l'') :
    l.printStopping format true sink tokens errors =
      .ofPrinted (l.printFrom format true sink tokens errors) := by
  rw [printFrom_of_failed_flush format sink tokens errors h lexical flushed, printStopping, h,
    if_pos counted]
  dsimp only
  rw [lexical, flushed, if_pos counted']
  rfl

end

/-- The induction over the reads in which no counter comes to its end, up to one in which a counter
does. -/
theorem counted_induction {motive : Lexer → Prop}
    (stopped : ∀ l, l.counts l.read.2 = false → motive l)
    (ended : ∀ l l', l.read = (.ok none, l') → l.counts l' → motive l)
    (token : ∀ l l' t, l.read = (.ok (some t), l') → l.counts l' → motive l' → motive l)
    (error : ∀ l l' e, l.read = (.error e, l') → l.counts l' → motive l'.flush.2 → motive l)
    (l : Lexer) : motive l := by
  induction l using reads_induction with
  | ended l l' called =>
      cases counted : l.counts l.read.2 with
      | false => exact stopped l counted
      | true =>
          rw [called] at counted
          exact ended l l' called counted
  | token l l' t called ih =>
      cases counted : l.counts l.read.2 with
      | false => exact stopped l counted
      | true =>
          rw [called] at counted
          exact token l l' t called counted ih
  | error l l' e called ih =>
      cases counted : l.counts l.read.2 with
      | false => exact stopped l counted
      | true =>
          rw [called] at counted
          exact error l l' e called counted ih

/-- Unless the program stops, the run is the one that counts without an end. -/
theorem printStopping_eq (format : OutputFormat) (recover : Bool) (l : Lexer) (sink : Sink)
    (tokens errors : Nat) :
    (l.printStopping format recover sink tokens errors).result = none ∨
      l.printStopping format recover sink tokens errors =
        .ofPrinted (l.printFrom format recover sink tokens errors) := by
  induction l using counted_induction generalizing sink tokens errors with
  | stopped l ends =>
      left
      rw [printStopping_of_uncounted format recover tokens errors sink ends]
  | ended l l' called counted =>
      exact .inr (printStopping_of_end format recover tokens errors sink called counted)
  | token l l' t called counted ih =>
      rcases written : sink.writeToken format t l'.position with ⟨refused | _, sink'⟩
      · exact .inr (printStopping_of_refusal format recover tokens errors called counted written)
      · rw [printStopping_of_token format recover tokens errors called counted written,
          printFrom_of_token format recover tokens errors called written]
        exact ih sink' (tokens + 1) errors
  | error l l' e called counted ih =>
      cases recovers : recover && !e.isInput with
      | false =>
          exact .inr (printStopping_of_stop format tokens errors sink called counted recovers)
      | true =>
          obtain ⟨rfl, lexical⟩ : recover = true ∧ e.isInput = false := by simpa using recovers
          cases counted' : l'.counts l'.flush.2 with
          | false =>
              left
              rw [printStopping_of_uncounted_flush format tokens errors sink called counted lexical
                counted']
          | true =>
              rcases flushed : l'.flush with ⟨e' | _, l''⟩
              · rw [flushed] at counted'
                right
                exact printStopping_of_failed_flush format tokens errors sink called counted lexical
                  flushed counted'
              · rw [flushed] at ih counted'
                rw [printStopping_of_error format tokens errors sink called counted lexical flushed
                    counted',
                  printFrom_of_error format sink tokens errors called lexical flushed]
                rcases ih sink tokens (errors + 1) with stopped | same
                · exact .inl stopped
                · rw [same]
                  exact .inr rfl

theorem met_of_lexical {l l' : Lexer} {e : LexError} (h : l.read = (.error e, l'))
    (lexical : e.isInput = false) : [.error e] <+: l.met := by
  rcases flushed : l'.flush with ⟨e' | _, l''⟩
  · exact ⟨[], (met_of_failed_flush h lexical flushed).symm⟩
  · exact ⟨l''.met, (met_of_error h lexical flushed).symm⟩

/-- What a program has told when it stops or ends are first ones of what is met, on lines that
32 bits can count. -/
theorem printStopping_tells (format : OutputFormat) {l : Lexer} {p : Position} (h : l.Beyond p)
    (low : l.line < UInt32.size) (sink : Sink) (tokens errors : Nat) :
    ∃ told, told <+: l.met ∧
      (∀ item ∈ told, ∀ q ∈ item.place?, q.line < UInt32.size) ∧
      Tells format sink told (l.printStopping format true sink tokens errors).sink.taken
        (l.printStopping format true sink tokens errors).reported := by
  induction l using counted_induction generalizing p sink tokens errors with
  | stopped l ends =>
      rw [printStopping_of_uncounted format true tokens errors sink ends]
      exact ⟨[], List.nil_prefix, nofun, rfl, rfl⟩
  | ended l l' called counted =>
      rw [printStopping_of_end format true tokens errors sink called counted,
        printFrom_of_end format true sink tokens errors called]
      exact ⟨[], List.nil_prefix, nofun, l'.close_tells format sink _ rfl⟩
  | token l l' t called counted ih =>
      have moves := l.read_moves
      rw [called] at moves
      have low' := counts_line moves counted low
      obtain ⟨-, beyond⟩ := token_beyond h called
      have place : ∀ q ∈ Item.place? (.token t l'.position), q.line < UInt32.size := by
        intro q told
        cases told
        exact Nat.lt_of_le_of_lt beyond.scanner.cursor.line_le low'
      rw [met_of_token called]
      rcases written : sink.writeToken format t l'.position with ⟨refused | _, sink'⟩
      · rw [printStopping_of_refusal format true tokens errors called counted written,
          printFrom_of_refusal format true tokens errors called written]
        refine ⟨[.token t l'.position], ⟨l'.met, rfl⟩, List.forall_mem_singleton.mpr place, ?_, rfl⟩
        rw [Sink.writeItems, written]
        rfl
      · obtain ⟨told, before, lines, tells⟩ := ih beyond low' sink' (tokens + 1) errors
        rw [printStopping_of_token format true tokens errors called counted written]
        exact ⟨_, List.cons_prefix_cons.mpr ⟨rfl, before⟩, List.forall_mem_cons.mpr ⟨place, lines⟩,
          tells.token written⟩
  | error l l' e called counted ih =>
      have moves := l.read_moves
      rw [called] at moves
      have low' := counts_line moves counted low
      cases lexical : e.isInput with
      | true =>
          obtain ⟨f, rfl⟩ := LexError.isInput_iff.mp lexical
          rw [printStopping_of_stop format tokens errors sink called counted rfl,
            printFrom_of_stop format sink tokens errors called rfl]
          exact ⟨[], List.nil_prefix, nofun, (l'.close_tells format sink _ rfl).input f⟩
      | false =>
          obtain ⟨q, placed⟩ := LexError.position?_of_lexical lexical
          obtain ⟨-, beyond⟩ := error_beyond h called placed
          have place : ∀ q ∈ Item.place? (.error e), q.line < UInt32.size := by
            intro q' told
            cases placed.symm.trans told
            exact Nat.lt_of_le_of_lt beyond.scanner.cursor.line_le low'
          have alone : Tells format sink [.error e] sink.taken [e] := Tells.error ⟨rfl, rfl⟩ lexical
          have first := met_of_lexical called lexical
          cases counted' : l'.counts l'.flush.2 with
          | false =>
              -- the error is out when its flush stops the program
              rw [printStopping_of_uncounted_flush format tokens errors sink called counted lexical
                counted']
              exact ⟨[.error e], first, List.forall_mem_singleton.mpr place, alone⟩
          | true =>
              have moves' := l'.flush_moves
              have beyond' := (flush_beyond beyond).1
              rcases flushed : l'.flush with ⟨e' | _, l''⟩
              · rw [flushed] at counted'
                rw [printStopping_of_failed_flush format tokens errors sink called counted lexical
                    flushed counted',
                  printFrom_of_failed_flush format sink tokens errors called lexical flushed]
                exact ⟨[.error e], first, List.forall_mem_singleton.mpr place, alone⟩
              · rw [flushed] at ih counted' moves' beyond'
                have low'' := counts_line moves' counted' low'
                obtain ⟨told, before, lines, tells⟩ := ih beyond' low'' sink tokens (errors + 1)
                rw [printStopping_of_error format tokens errors sink called counted lexical flushed
                    counted',
                  met_of_error called lexical flushed]
                exact ⟨_, List.cons_prefix_cons.mpr ⟨rfl, before⟩,
                  List.forall_mem_cons.mpr ⟨place, lines⟩, tells.error lexical⟩

/-- On the last line that can be counted, the flush behind the first error does not return. -/
example :
    let cursor : Cursor := ⟨.ofText ['#', '\n', '#', '\n'], ⟨4294967295, 1⟩⟩
    let l : Lexer := ⟨⟨cursor, none, .start⟩, .initial, none, .start⟩
    let stopped := l.printStopping .plain true .unlimited 0 0
    stopped.result.isNone ∧ stopped.reported = [.illegalCharacter '#' ⟨4294967295, 1⟩] := by
  decide +kernel

end Lexer

end JamTokens
