import JamTokens.Proofs.Places
import JamTokens.Proofs.Stopping
import JamTokens.Proofs.TextFeeds

/-!
# What a run that recovers tells

A run that recovers from errors tells the tokens that it prints and the errors
that it reports, one after the other.  They are what its lexer meets, up to the
first failure of the input or of the sink.

A flush leaves the lexer at the start of a line below the error, or at the end
of the input.  So nothing that is told later lies on the line of the error:
neither a second error nor a token of what the error leaves of its line.
-/

set_option autoImplicit false

namespace JamTokens

open Grammar

/-! ## Tokens and errors in order -/

namespace Item

def place? : Item → Option Position
  | token _ start => some start
  | error e => e.position?

def isInput : Item → Bool
  | token .. => false
  | error e => e.isInput

/-- If the earlier one is an error, the later one is on a line below it. -/
def LeavesLine (earlier later : Item) : Prop :=
  ∀ e, earlier = .error e → ∀ p ∈ e.position?, ∀ q ∈ later.place?, p.line < q.line

/-- The items lie behind a place, and those behind an error on lines below it. -/
structure Descend (p : Position) (items : List Item) : Prop where
  behind : ∀ item ∈ items, ∀ q ∈ item.place?, p.Precedes q
  sorted : items.Pairwise LeavesLine

theorem descend_nil (p : Position) : Descend p [] :=
  ⟨fun _ member => absurd member List.not_mem_nil, .nil⟩

variable {p start : Position} {items : List Item}

theorem Descend.token (h : Descend start items) (before : p.Precedes start) (t : Token) :
    Descend p (.token t start :: items) := by
  constructor
  · rw [List.forall_mem_cons]
    constructor
    · intro q told
      cases told
      exact before
    · exact fun item member q told => before.trans (h.behind item member q told)
  · refine .cons ?_ h.sorted
    intro item _ e same
    cases same

theorem Descend.error {e : LexError} (h : Descend ⟨start.line + 1, 0⟩ items)
    (before : p.Precedes start) (place : e.position? = some start) :
    Descend p (.error e :: items) := by
  have lower : ∀ item ∈ items, ∀ q ∈ item.place?, start.line < q.line :=
    fun item member q told => (h.behind item member q told).line_le
  constructor
  · rw [List.forall_mem_cons]
    constructor
    · intro q told
      cases place.symm.trans told
      exact before
    · intro item member q told
      exact .inl (Nat.lt_of_le_of_lt before.line_le (lower item member q told))
  · refine .cons ?_ h.sorted
    intro item member e' same q place' q' told
    cases same
    cases place.symm.trans place'
    exact lower item member q' told

end Item

theorem LexError.position?_of_lexical {e : LexError} (lexical : e.isInput = false) :
    ∃ p, e.position? = some p := by
  cases e with
  | numericOverflow _ p => exact ⟨p, rfl⟩
  | illegalCharacter _ p => exact ⟨p, rfl⟩
  | illegalOperatorSequence _ p => exact ⟨p, rfl⟩
  | input f => cases lexical

namespace Lexer

section

variable [Counting]

/-- What is met until the input fails, if the lexer is flushed after each error. -/
def met (l : Lexer) : List Item := (l.items .flush).1.takeWhile (!·.isInput)

theorem met_of_end {l l' : Lexer} (h : l.read = (.ok none, l')) : l.met = [] := by
  rw [met, items_of_end .flush h]
  rfl

theorem met_of_token {l l' : Lexer} {t : Token} (h : l.read = (.ok (some t), l')) :
    l.met = .token t l'.position :: l'.met := by
  rw [met, items_of_token .flush h]
  rfl

theorem met_of_error {l l' l'' : Lexer} {e : LexError} (h : l.read = (.error e, l'))
    (lexical : e.isInput = false) (flushed : l'.flush = (.ok (), l'')) :
    l.met = .error e :: l''.met := by
  rw [met, items_flush_of_error h flushed]
  exact List.takeWhile_cons_of_pos (by simp [Item.isInput, lexical])

theorem met_of_failed_flush {l l' l'' : Lexer} {e e' : LexError} (h : l.read = (.error e, l'))
    (lexical : e.isInput = false) (flushed : l'.flush = (.error e', l'')) :
    l.met = [.error e] := by
  obtain ⟨f, rfl⟩ := flush_error flushed
  rw [met, items_flush_of_failed_flush h flushed]
  exact List.takeWhile_cons_of_pos (by simp [Item.isInput, lexical])

theorem met_of_input {l l' : Lexer} {f : Failure} (h : l.read = (.error (.input f), l')) :
    l.met = [] := by
  rcases flushed : l'.flush with ⟨e' | _, l''⟩
  · rw [met, items_flush_of_failed_flush h flushed]
    rfl
  · rw [met, items_flush_of_error h flushed]
    rfl

end

theorem met_atEnd {l : Lexer} (h : l.AtEnd) : l.met = [] := by
  obtain ⟨l', called, -⟩ := call_atEnd h .read
  exact met_of_end called

end Lexer

/-! ## Leaving the line of an error -/

/-- What the rest of a line ends with, if no failure cuts it short: a line feed or the input. -/
theorem Feed.takeLine_stops (feed : Feed) (h : feed.takeLine.failure = none) :
    EndsLine feed.takeLine.taken ∨ feed.takeLine.rest.Ended := by
  fun_induction takeLine feed with
  | case1 rest => exact .inl rfl
  | case2 c rest other ih =>
      refine (ih h).imp_left ?_
      intro ends
      rw [EndsLine, Run.cons_taken, List.getLast?_cons, ends]
      rfl
  | case3 rest ih => exact ih h
  | case4 f rest => cases h
  | case5 rest => exact .inr trivial
  | case6 => exact .inr trivial

namespace Lexer

/-- A flush leaves the lexer on a line below every place that the lexer is beyond. -/
theorem flush_leaves_line {l l' : Lexer} {p : Position} (h : l.Beyond p)
    (flushed : l.flush = (.ok (), l')) : l'.Beyond ⟨p.line + 1, 0⟩ ∨ l'.AtEnd := by
  have stops := Feed.takeLine_stops l.scanner.cursor.feed
  unfold flush at flushed
  rw [Scanner.flush_eq] at flushed
  cases failed : l.scanner.cursor.feed.takeLine.failure with
  | some f =>
      rw [failed] at flushed
      cases flushed
  | none =>
      rw [failed] at flushed
      cases flushed
      rcases stops failed with ends | ended
      · left
        apply beyond_of_peeked_none rfl
        apply Scanner.beyond_of_returned_none rfl
        have reached := h.scanner.cursor.line_le
        have passed := List.count_pos_iff.mpr ends.newline_mem
        simp only [Cursor.pass, Position.after_endsLine ends, Position.Precedes]
        omega
      · right
        refine ⟨ended, ?_, rfl⟩
        intro lexeme start found
        cases found

theorem token_beyond {l l' : Lexer} {p : Position} (h : l.Beyond p) {t : Token}
    (called : l.read = (.ok (some t), l')) : p.Precedes l'.position ∧ l'.Beyond l'.position := by
  have told : (l.answer .read).place? = some l'.position := by
    simp [answer, startRead, call, called, Answer.place?]
  obtain ⟨-, place⟩ := read_beyond h
  rw [called] at place
  exact place l'.position told

theorem error_beyond {l l' : Lexer} {p : Position} (h : l.Beyond p) {e : LexError}
    (called : l.read = (.error e, l')) {q : Position} (place : e.position? = some q) :
    p.Precedes q ∧ l'.Beyond q := by
  have told : (l.answer .read).place? = some q := by
    simp [answer, call, called, Answer.place?, place]
  obtain ⟨-, place⟩ := read_beyond h
  rw [called] at place
  exact place q told

theorem met_descends {l : Lexer} {p : Position} (h : l.Beyond p) : Item.Descend p l.met := by
  induction l using reads_induction generalizing p with
  | ended l l' called =>
      rw [met_of_end called]
      exact Item.descend_nil p
  | token l l' t called ih =>
      obtain ⟨before, beyond⟩ := token_beyond h called
      rw [met_of_token called]
      exact (ih beyond).token before t
  | error l l' e called ih =>
      cases lexical : e.isInput with
      | true =>
          obtain ⟨f, rfl⟩ := LexError.isInput_iff.mp lexical
          rw [met_of_input called]
          exact Item.descend_nil p
      | false =>
          obtain ⟨q, place⟩ := LexError.position?_of_lexical lexical
          obtain ⟨before, beyond⟩ := error_beyond h called place
          rcases flushed : l'.flush with ⟨e' | _, l''⟩
          · rw [met_of_failed_flush called lexical flushed]
            exact (Item.descend_nil _).error before place
          · rw [flushed] at ih
            rw [met_of_error called lexical flushed]
            -- a line without a line feed is the last one, and nothing is met behind it
            rcases flush_leaves_line beyond flushed with below | atEnd
            · exact (ih below).error before place
            · rw [met_atEnd atEnd]
              exact (Item.descend_nil _).error before place

/-- The follower of the bang is on the second line, and the rest of that line goes with it. -/
example :
    (ofSource (.ofText ['!', '\n', 'x', '#', '\n', '#', 'y', '\n', '7'])).met =
      [.error (.illegalOperatorSequence "!x" ⟨1, 1⟩), .error (.illegalCharacter '#' ⟨3, 1⟩),
        .token (.intConstant 7) ⟨4, 1⟩] := by
  decide +kernel

end Lexer

/-! ## What is printed and reported -/

/-- Prints the tokens, one after the other, whether or not they are taken. -/
def Sink.writeItems (format : OutputFormat) (s : Sink) : List Item → Sink
  | [] => s
  | .token t start :: items => (s.writeToken format t start).2.writeItems format items
  | .error _ :: items => s.writeItems format items

/-- The bytes are these tokens and the reports are these errors, and besides them at most a failure
of the input. -/
structure Tells (format : OutputFormat) (sink : Sink) (told : List Item) (taken : ByteArray)
    (reported : List LexError) : Prop where
  taken : taken = (sink.writeItems format told).taken
  reported : reported.filter (!·.isInput) = told.filterMap Item.mistake?

namespace Tells

variable {format : OutputFormat} {sink : Sink} {told : List Item} {taken : ByteArray}
  {reported : List LexError}

theorem input (h : Tells format sink told taken reported) (f : Failure) :
    Tells format sink told taken (.input f :: reported) where
  taken := h.taken
  reported := h.reported

theorem error (h : Tells format sink told taken reported) {e : LexError}
    (lexical : e.isInput = false) :
    Tells format sink (.error e :: told) taken (e :: reported) where
  taken := h.taken
  reported := by
    have kept : Item.mistake? (.error e) = some e := by simp [Item.mistake?, lexical]
    rw [List.filterMap_cons_some kept, ← h.reported]
    exact List.filter_cons_of_pos (by simp [lexical])

theorem token {sink' : Sink} {t : Token} {start : Position}
    (h : Tells format sink' told taken reported)
    (written : sink.writeToken format t start = (.ok (), sink')) :
    Tells format sink (.token t start :: told) taken reported where
  taken := by rw [h.taken, Sink.writeItems, written]
  reported := h.reported

end Tells

namespace Lexer

section

variable [Counting]

omit [Counting] in
theorem close_tells (format : OutputFormat) (l : Lexer) (sink : Sink)
    (result : Except RunError Unit) {log : List LogEntry}
    (silent : (Printed.mk result sink l log).reported = []) :
    Tells format sink [] (l.close sink result log).sink.taken
      (l.close sink result log).reported := by
  unfold close Sink.flush
  cases sink.flushFailure with
  | some f => exact ⟨rfl, rfl⟩
  | none => exact ⟨rfl, congrArg (List.filter _) silent⟩

/-- What a run tells is all that is met, unless the sink refuses a token. -/
theorem printFrom_tells (format : OutputFormat) (l : Lexer) (sink : Sink) (tokens errors : Nat) :
    ∃ told, told <+: l.met ∧ (sink.room = none → told = l.met) ∧
      Tells format sink told (l.printFrom format true sink tokens errors).sink.taken
        (l.printFrom format true sink tokens errors).reported := by
  induction l using reads_induction generalizing sink tokens errors with
  | ended l l' called =>
      rw [met_of_end called, printFrom_of_end format true sink tokens errors called]
      exact ⟨[], List.prefix_rfl, fun _ => rfl, l'.close_tells format sink _ rfl⟩
  | token l l' t called ih =>
      rw [met_of_token called]
      rcases written : sink.writeToken format t l'.position with ⟨refused | _, sink'⟩
      · rw [printFrom_of_refusal format true tokens errors called written]
        refine ⟨[.token t l'.position], ⟨l'.met, rfl⟩, ?_, ?_, rfl⟩
        · intro takes
          cases written.symm.trans (Sink.writeToken_of_room takes format t l'.position)
        · rw [Sink.writeItems, written]
          rfl
      · obtain ⟨told, before, whole, tells⟩ := ih sink' (tokens + 1) errors
        rw [printFrom_of_token format true tokens errors called written]
        refine ⟨_, List.cons_prefix_cons.mpr ⟨rfl, before⟩, ?_, tells.token written⟩
        intro takes
        have same := written.symm.trans (Sink.writeToken_of_room takes format t l'.position)
        obtain ⟨-, rfl⟩ := Prod.mk.inj same
        rw [whole takes]
  | error l l' e called ih =>
      cases lexical : e.isInput with
      | true =>
          obtain ⟨f, rfl⟩ := LexError.isInput_iff.mp lexical
          rw [met_of_input called, printFrom_of_stop format sink tokens errors called rfl]
          exact ⟨[], List.prefix_rfl, fun _ => rfl, (l'.close_tells format sink _ rfl).input f⟩
      | false =>
          rcases flushed : l'.flush with ⟨e' | _, l''⟩
          · rw [met_of_failed_flush called lexical flushed,
              printFrom_of_failed_flush format sink tokens errors called lexical flushed]
            refine ⟨[.error e], List.prefix_rfl, fun _ => rfl, rfl, ?_⟩
            simp [Printed.reported, Item.mistake?, lexical]
          · rw [flushed] at ih
            obtain ⟨told, before, whole, tells⟩ := ih sink tokens (errors + 1)
            rw [met_of_error called lexical flushed,
              printFrom_of_error format sink tokens errors called lexical flushed]
            refine ⟨_, List.cons_prefix_cons.mpr ⟨rfl, before⟩, ?_, tells.error lexical⟩
            exact fun takes => congrArg _ (whole takes)

end

end Lexer

/-! ## The lines of what is told -/

theorem Item.of_mistake_place {item : Item} {p : Position}
    (h : item.mistake?.bind LexError.position? = some p) :
    ∃ e, item = .error e ∧ e.position? = some p := by
  obtain ⟨e, mistake, place⟩ := Option.bind_eq_some_iff.mp h
  cases item with
  | token t start => cases mistake
  | error e' =>
      have same : e' = e := by
        rw [mistake?, Option.ite_none_left_eq_some] at mistake
        exact Option.some.inj mistake.2
      exact ⟨e, congrArg Item.error same, place⟩

/-- Only a failure of the input has no position, so all lexical errors are among these. -/
theorem Tells.errors_on_lines {format : OutputFormat} {sink : Sink} {told : List Item}
    {taken : ByteArray} {reported : List LexError} (h : Tells format sink told taken reported)
    (sorted : told.Pairwise Item.LeavesLine) :
    (reported.filterMap LexError.position?).Pairwise
      fun earlier later => earlier.line < later.line := by
  have placed : reported.filterMap LexError.position? =
      (reported.filter (!·.isInput)).filterMap LexError.position? := by
    rw [List.filterMap_filter]
    congr 1
    funext e
    cases e with
    | _ => rfl
  rw [placed, h.reported, List.filterMap_filterMap, List.pairwise_filterMap]
  apply sorted.imp
  intro earlier later leaves q found q' found'
  obtain ⟨e, same, place⟩ := Item.of_mistake_place found
  obtain ⟨e', rfl, place'⟩ := Item.of_mistake_place found'
  exact leaves e same q place q' place'

end JamTokens
