import JamTokens.Proofs.Recovery

/-!
# Stopping and recovering

Until the first lexical error a run that recovers from errors does what a run
does that stops there.  From then on it only adds to what both have printed,
and it ends with the number of the lexical errors it has met, or with a failure
of the input: one that a read meets, or one that a flush meets.
-/

set_option autoImplicit false

namespace JamTokens

def Item.mistake? : Item → Option LexError
  | .token .. => none
  | .error e => if e.isInput then none else some e

theorem LexError.isInput_iff {e : LexError} : e.isInput = true ↔ ∃ f, e = .input f := by
  cases e <;> simp [isInput]

namespace Lexer

/-! ## From read to read -/

section

variable [Counting]

/-- The induction over the reads of a lexer that is flushed after each error. -/
theorem reads_induction {motive : Lexer → Prop}
    (ended : ∀ l l', l.read = (.ok none, l') → motive l)
    (token : ∀ l l' t, l.read = (.ok (some t), l') → motive l' → motive l)
    (error : ∀ l l' e, l.read = (.error e, l') → motive l'.flush.2 → motive l)
    (l : Lexer) : motive l := by
  generalize size : l.work = n
  induction n using Nat.strongRecOn generalizing l with
  | ind n ih =>
      have less := l.read_work_lt
      rcases called : l.read with ⟨e | (_ | t), l'⟩
      · have fewer : l'.work < n := by simpa [called, size] using less
        exact error l l' e called (ih _ (Nat.lt_of_le_of_lt l'.flush_work_le fewer) _ rfl)
      · exact ended l l' called
      · have fewer : l'.work < n := by simpa [called, size] using less
        exact token l l' t called (ih _ fewer _ rfl)

theorem flush_error {l l' : Lexer} {e : LexError} (h : l.flush = (.error e, l')) :
    ∃ f, e = .input f := by
  unfold flush at h
  split at h
  · cases h
  · cases h
    exact ⟨_, rfl⟩

theorem items_flush_of_error {l l' l'' : Lexer} {e : LexError} (h : l.read = (.error e, l'))
    (flushed : l'.flush = (.ok (), l'')) :
    (l.items .flush).1 = .error e :: (l''.items .flush).1 := by
  rw [items]
  split <;> rename_i found <;> rw [h] at found <;> cases found
  simp only [flushed]
  rfl

theorem items_flush_of_failed_flush {l l' l'' : Lexer} {e e' : LexError}
    (h : l.read = (.error e, l')) (flushed : l'.flush = (.error e', l'')) :
    (l.items .flush).1 = .error e :: .error e' :: (l''.items .flush).1 := by
  rw [items]
  split <;> rename_i found <;> rw [h] at found <;> cases found
  simp only [flushed]
  rfl

omit [Counting] in
theorem close_open (l : Lexer) {sink : Sink} (takes : sink.Open) (result : Except RunError Unit)
    (log : List LogEntry) :
    l.close sink result log = ⟨result, { sink with flushed := true }, l, log⟩ := by
  simp [close, Sink.flush, takes.flushes]

theorem printFrom_of_stop {l l' : Lexer} (format : OutputFormat) {recover : Bool} (sink : Sink)
    (tokens errors : Nat) {e : LexError} (h : l.read = (.error e, l'))
    (stops : (recover && !e.isInput) = false) :
    l.printFrom format recover sink tokens errors =
      (l'.close sink (.error (.lex e)) []).logged [.reported e] := by
  rw [printFrom]
  split <;> rename_i found <;> rw [h] at found <;> cases found
  rw [stops]
  rfl

theorem printFrom_of_last_error {l l' : Lexer} (format : OutputFormat) {recover : Bool}
    {sink : Sink} (takes : sink.Open) (tokens errors : Nat) {e : LexError}
    (h : l.read = (.error e, l')) (stops : (recover && !e.isInput) = false) :
    l.printFrom format recover sink tokens errors =
      ⟨.error (.lex e), { sink with flushed := true }, l', [.reported e]⟩ := by
  rw [printFrom_of_stop format sink tokens errors h stops, close_open l' takes]
  rfl

theorem printFrom_of_refusal {l l' : Lexer} (format : OutputFormat) (recover : Bool)
    {sink sink' : Sink} (tokens errors : Nat) {token : Token} {refused : RunError}
    (h : l.read = (.ok (some token), l'))
    (written : sink.writeToken format token l'.position = (.error refused, sink')) :
    l.printFrom format recover sink tokens errors = ⟨.error refused, sink', l', []⟩ := by
  rw [printFrom]
  split <;> rename_i found <;> rw [h] at found <;> cases found
  rw [written]

theorem printFrom_of_failed_flush {l l' l'' : Lexer} (format : OutputFormat) (sink : Sink)
    (tokens errors : Nat) {e e' : LexError} (h : l.read = (.error e, l'))
    (lexical : e.isInput = false) (flushed : l'.flush = (.error e', l'')) :
    l.printFrom format true sink tokens errors = ⟨.error (.lex e'), sink, l'', [.reported e]⟩ := by
  rw [printFrom]
  split <;> rename_i found <;> rw [h] at found <;> cases found
  rw [lexical]
  simp only [Bool.not_false, Bool.and_self, if_true]
  split <;> rename_i found' <;> rw [flushed] at found' <;> cases found'
  rfl

end

/-- The lexical errors that are met when reading goes on behind the line of each error. -/
def mistakes (l : Lexer) : List LexError :=
  (l.items .flush).1.filterMap Item.mistake?

theorem mistakes_of_end {l l' : Lexer} (h : l.read = (.ok none, l')) : l.mistakes = [] := by
  rw [mistakes, items_of_end .flush h, List.filterMap_nil]

theorem mistakes_of_token {l l' : Lexer} {t : Token} (h : l.read = (.ok (some t), l')) :
    l.mistakes = l'.mistakes := by
  rw [mistakes, items_of_token .flush h]
  rfl

theorem mistakes_of_error {l l' : Lexer} {e : LexError} (h : l.read = (.error e, l'))
    (lexical : e.isInput = false) : l.mistakes = e :: l'.flush.2.mistakes := by
  have kept : Item.mistake? (.error e) = some e := by simp [Item.mistake?, lexical]
  rw [mistakes, mistakes]
  rcases flushed : l'.flush with ⟨e' | _, l''⟩
  · obtain ⟨f, rfl⟩ := flush_error flushed
    rw [items_flush_of_failed_flush h flushed]
    exact List.filterMap_cons_some kept
  · rw [items_flush_of_error h flushed]
    exact List.filterMap_cons_some kept

end Lexer

theorem Sink.writeToken_extends {s : Sink} (takes : s.Open) (format : OutputFormat) (token : Token)
    (start : Position) :
    ∃ s' line, s.writeToken format token start = (.ok (), s') ∧ s'.Open ∧
      s'.taken = s.taken ++ line :=
  ⟨_, _, writeToken_open takes format token start, ⟨takes.room, takes.flushes⟩, rfl⟩

/-! ## A run that recovers -/

def Printed.InputFailed (p : Printed) : Prop := ∃ f, p.result = .error (.lex (.input f))

def verdict (errors : Nat) : Except RunError Unit :=
  if errors = 0 then .ok () else .error (.recovered errors)

/-- What a run makes of a sink and of the errors it meets, when it has counted some before. -/
structure Printed.Recovers (p : Printed) (taken : ByteArray) (errors : Nat)
    (met : List LexError) : Prop where
  extended : ∃ more, p.sink.taken = taken ++ more
  ended : p.InputFailed ∨ p.reported = met ∧ p.result = verdict (errors + met.length)

namespace Lexer

theorem printFrom_recovers (format : OutputFormat) (l : Lexer) {sink : Sink} (takes : sink.Open)
    (tokens errors : Nat) :
    (l.printFrom format true sink tokens errors).Recovers sink.taken errors l.mistakes := by
  induction l using reads_induction generalizing sink tokens errors with
  | ended l l' called =>
      rw [printFrom_of_end format true sink tokens errors called, close_open l' takes,
        mistakes_of_end called]
      exact ⟨⟨.empty, ByteArray.append_empty.symm⟩, .inr ⟨rfl, rfl⟩⟩
  | token l l' t called ih =>
      obtain ⟨sink', line, written, takes', taken'⟩ :=
        Sink.writeToken_extends takes format t l'.position
      obtain ⟨⟨more, taken⟩, ended⟩ := ih takes' (tokens + 1) errors
      rw [printFrom_of_token format true tokens errors called written, mistakes_of_token called]
      refine ⟨⟨line ++ more, ?_⟩, ended⟩
      rw [taken, taken', ByteArray.append_assoc]
  | error l l' e called ih =>
      cases lexical : e.isInput with
      | true =>
          obtain ⟨f, rfl⟩ := LexError.isInput_iff.mp lexical
          rw [printFrom_of_last_error format takes tokens errors called rfl]
          exact ⟨⟨.empty, ByteArray.append_empty.symm⟩, .inl ⟨f, rfl⟩⟩
      | false =>
          rcases flushed : l'.flush with ⟨e' | _, l''⟩
          · obtain ⟨f, rfl⟩ := flush_error flushed
            rw [printFrom_of_failed_flush format sink tokens errors called lexical flushed]
            exact ⟨⟨.empty, ByteArray.append_empty.symm⟩, .inl ⟨f, rfl⟩⟩
          · have met := mistakes_of_error called lexical
            rw [flushed] at ih met
            obtain ⟨extended, ended⟩ := ih takes tokens (errors + 1)
            rw [printFrom_of_error format sink tokens errors called lexical flushed, met]
            refine ⟨extended, ended.imp_right ?_⟩
            rintro ⟨reported, result⟩
            refine ⟨congrArg (e :: ·) reported, ?_⟩
            exact result.trans (congrArg verdict (Nat.succ_add_eq_add_succ errors _))

end Lexer

/-! ## The two runs -/

/-- The run that recovers extends the run that stops, where these lexical errors are met. -/
structure Printed.Extends (recovering stopping : Printed) (met : List LexError) : Prop where
  output : ∃ more, recovering.sink.taken = stopping.sink.taken ++ more
  /-- A run that stops ends in one of three ways, which the next three fields tell apart. -/
  stops : stopping.result = .ok () ∨ ∃ e, stopping.result = .error (.lex e)
  ended : stopping.result = .ok () →
    recovering.sink.taken = stopping.sink.taken ∧ recovering.result = .ok ()
  inputFailed : ∀ f, stopping.result = .error (.lex (.input f)) →
    recovering.sink.taken = stopping.sink.taken ∧ recovering.result = .error (.lex (.input f))
  lexical : ∀ e, stopping.result = .error (.lex e) → e.isInput = false →
    1 ≤ met.length ∧ recovering.result = .error (.recovered met.length) ∨ recovering.InputFailed
  onlyInput : ∀ e, recovering.result = .error (.lex e) → e.isInput = true
  counted : ∀ count, recovering.result = .error (.recovered count) →
    1 ≤ count ∧ count = met.length ∧ recovering.reported = met

namespace Printed

variable {stopping recovering : Printed} {met : List LexError}

theorem extends_of_ended (taken : recovering.sink.taken = stopping.sink.taken)
    (stopped : stopping.result = .ok ()) (result : recovering.result = .ok ()) :
    recovering.Extends stopping met where
  output := ⟨.empty, by rw [taken, ByteArray.append_empty]⟩
  stops := .inl stopped
  ended _ := ⟨taken, result⟩
  inputFailed f failed := by cases stopped.symm.trans failed
  lexical e failed := by cases stopped.symm.trans failed
  onlyInput e failed := by cases result.symm.trans failed
  counted count reported := by cases result.symm.trans reported

theorem extends_of_input {f : Failure} (taken : recovering.sink.taken = stopping.sink.taken)
    (stopped : stopping.result = .error (.lex (.input f)))
    (result : recovering.result = .error (.lex (.input f))) :
    recovering.Extends stopping met where
  output := ⟨.empty, by rw [taken, ByteArray.append_empty]⟩
  stops := .inr ⟨_, stopped⟩
  ended ended := by cases stopped.symm.trans ended
  inputFailed f' failed := by
    cases stopped.symm.trans failed
    exact ⟨taken, result⟩
  lexical e failed lexical := by
    cases stopped.symm.trans failed
    cases lexical
  onlyInput e failed := by
    cases result.symm.trans failed
    rfl
  counted count reported := by cases result.symm.trans reported

theorem extends_of_lexical {e : LexError} (lexical : e.isInput = false)
    (stopped : stopping.result = .error (.lex e)) (some : met ≠ [])
    (goesOn : recovering.Recovers stopping.sink.taken 0 met) :
    recovering.Extends stopping met := by
  have positive : 1 ≤ met.length := List.length_pos_iff.mpr some
  have counts : verdict (0 + met.length) = .error (.recovered met.length) := by
    rw [verdict, Nat.zero_add, if_neg (Nat.ne_of_gt positive)]
  obtain ⟨output, result⟩ := goesOn
  rw [counts] at result
  refine ⟨output, .inr ⟨e, stopped⟩, ?_, ?_, ?_, ?_, ?_⟩
  · intro ended
    cases stopped.symm.trans ended
  · intro f failed
    cases stopped.symm.trans failed
    cases lexical
  · intro _ _ _
    rcases result with failed | ⟨-, result⟩
    · exact .inr failed
    · exact .inl ⟨positive, result⟩
  · intro e' failed
    rcases result with ⟨f, inputFailed⟩ | ⟨-, result⟩
    · cases inputFailed.symm.trans failed
      rfl
    · cases result.symm.trans failed
  · intro count counted
    rcases result with ⟨f, inputFailed⟩ | ⟨reported, result⟩
    · cases inputFailed.symm.trans counted
    · cases result.symm.trans counted
      exact ⟨positive, rfl, reported⟩

end Printed

namespace Lexer

theorem printFrom_extends (format : OutputFormat) (l : Lexer) {sink : Sink} (takes : sink.Open)
    (tokens : Nat) :
    (l.printFrom format true sink tokens 0).Extends (l.printFrom format false sink tokens 0)
      l.mistakes := by
  induction l using reads_induction generalizing sink tokens with
  | ended l l' called =>
      rw [printFrom_of_end format false sink tokens 0 called,
        printFrom_of_end format true sink tokens 0 called, close_open l' takes]
      exact Printed.extends_of_ended rfl rfl rfl
  | token l l' t called ih =>
      obtain ⟨sink', line, written, takes', -⟩ :=
        Sink.writeToken_extends takes format t l'.position
      rw [printFrom_of_token format false tokens 0 called written,
        printFrom_of_token format true tokens 0 called written, mistakes_of_token called]
      exact ih takes' (tokens + 1)
  | error l l' e called ih =>
      have stopped := printFrom_of_last_error format takes tokens 0 called (Bool.false_and _)
      rw [stopped]
      cases lexical : e.isInput with
      | true =>
          obtain ⟨f, rfl⟩ := LexError.isInput_iff.mp lexical
          rw [printFrom_of_last_error format takes tokens 0 called rfl]
          exact Printed.extends_of_input rfl rfl rfl
      | false =>
          -- nothing has been counted before, so all that counts is what is met from here on
          have goesOn := printFrom_recovers format l takes tokens 0
          have met := mistakes_of_error called lexical
          exact Printed.extends_of_lexical lexical rfl (met ▸ List.cons_ne_nil _ _) goesOn

/-- Whatever the source does, the run that recovers from errors extends the run that stops.  It ends
as that one does, unless that one ends with a lexical error; then it counts all lexical errors, if
the input does not fail on the way. -/
theorem print_extends_stopping (source : Source) (format : OutputFormat) :
    ((ofSource source).print format true .unlimited).Extends
      ((ofSource source).print format false .unlimited) (ofSource source).mistakes :=
  printFrom_extends format (ofSource source) ⟨rfl, rfl⟩ 0

/-- The dollar sign stands on a line with an earlier mistake, and is not met. -/
example :
    (ofSource (.ofText ['a', '#', '$', '\n', 'b', '\n', '!', ' ', 'c'])).mistakes =
      [.illegalCharacter '#' ⟨1, 2⟩, .illegalOperatorSequence "!c" ⟨3, 1⟩] := by
  decide +kernel

end Lexer

end JamTokens
